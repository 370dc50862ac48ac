import PlatformOverlay.Proofs.Imports.Qualified
import PlatformOverlay.Proofs.Java.DeclaredImports
import PlatformOverlay.Proofs.Java.Parser.Part
import PlatformOverlay.Proofs.Java.Respace

/-!
# An import declaration as a line

The parser reads an import declaration word by word, the repair of a file reads a line.  A
declaration that is written with the characters of such a line and names something qualified is read
from the line that it starts, and as the same import (`parse?_of_importDecl`).

Between the words of a declaration there may be blanks, which the line reader allows around dots and
behind the words `import` and `static`, and nothing else if the declaration is written with these
characters only (`gap_of_plain`). A keyword in the place of a name, and a comment anywhere, are what
the one reader takes and the other does not.
-/

namespace PlatformOverlay.Imports

open Java Java.Parser
open Java.Lexer (IsToken isSkipped isIdentPart)
open Text (isBlank dropBlanks splitChars)

variable {v w : Word} {ws vs rest taken : List Word}

/-- What a line says about an import. -/
def ImportLine.declared (i : ImportLine) : Import := ⟨i.isStatic, i.path, i.isWildcard⟩

/-- The characters with which a declaration is written on a line: those of names, dots, stars,
semicolons and the blanks between words but for line feeds. -/
def isDeclarationChar (c : Char) : Bool :=
  isPathChar c || c == '*' || c == ';' || (isSkipped c && c != '\n')

/-! ## Words on a line -/

/-- Comments have a slash in them, which the characters of a plain declaration exclude. -/
theorem slash_mem_of_comment {kind : TokenKind} {t : List Char} (h : IsToken kind t)
    (comment : kind.isComment = true) : '/' ∈ t := by
  obtain ⟨plain, -⟩ | ⟨l, rfl, -⟩ | ⟨l, r, rfl, -⟩ | ⟨l, r, -, rfl, -⟩ := Lexer.scan_cases h
  · rw [plain.1] at comment
    cases comment
  · exact List.mem_cons_self
  · exact List.mem_cons_self
  · cases comment

/-- Only blanks stand between the words of a declaration, so two words that would be one without
them are apart. -/
theorem gap_of_plain (h : FromText (v :: w :: ws))
    (plain : w.gap.toList.all isDeclarationChar = true) :
    w.gap.toList.all isBlank = true ∧
      (w.gap.toList = [] → ∃ k, Lexer.Follows v.kind v.text.toList (w.text.toList ++ k)) := by
  obtain ⟨cs, t, k, comments, -, text, gap, chained, follows⟩ := h.exists_between
  cases cs with
  | cons c cs =>
    have slash : '/' ∈ w.gap.toList := by
      rw [gap, charsOf_cons]
      simp [slash_mem_of_comment chained.2.1 (comments c List.mem_cons_self)]
    exact absurd (List.all_eq_true.1 plain _ slash) (by decide)
  | nil =>
    rw [charsOf_nil, List.nil_append] at gap
    refine ⟨List.all_eq_true.2 fun c hc ↦ Lexer.isBlank_of_isSkipped (chained.1 c (gap ▸ hc)),
      fun none ↦ ?_⟩
    rw [List.nil_append, charsOf_cons, charsOf_nil, List.append_nil, ← gap, none,
      List.nil_append, text]
      at follows
    exact ⟨k, follows⟩

/-- Of the characters of a plain declaration, those of identifiers are those of names. -/
theorem isNameChar_of_isIdentPart {c : Char} (h : isIdentPart c = true)
    (plain : isDeclarationChar c = true) : isNameChar c = true := by
  have ne {d : Char} (hd : isIdentPart d = false) : (c == d) = false := by
    rw [beq_eq_false_iff_ne]
    rintro rfl
    rw [h] at hd
    cases hd
  have skipped : isSkipped c = false := by
    simp only [isSkipped, Bool.or_eq_false_iff]
    exact ⟨⟨⟨⟨ne (by decide), ne (by decide)⟩, ne (by decide)⟩, ne (by decide)⟩, ne (by decide)⟩
  have dot := ne (d := '.') (by decide)
  have star := ne (d := '*') (by decide)
  have semi := ne (d := ';') (by decide)
  simpa [isDeclarationChar, isPathChar, dot, star, semi, skipped] using plain

/-- A plain identifier is a name to the line pattern. -/
theorem isName_of_isToken {t : List Char} (h : IsToken .ident t)
    (plain : t.all isDeclarationChar = true) :
    isName t = true := by
  have parts := Lexer.isIdentPart_of_isToken h
  have nonempty : t ≠ [] := Lexer.IsToken.ne_nil h
  rw [isName, Bool.and_eq_true, Bool.not_eq_true', List.isEmpty_eq_false_iff]
  exact ⟨nonempty, List.all_eq_true.2 fun c hc ↦
    isNameChar_of_isIdentPart (List.all_eq_true.1 parts c hc) (List.all_eq_true.1 plain c hc)⟩

/-! ## Names -/

/-- Names between dots, with a star behind the last if it is a wildcard, are read as such. -/
theorem qualifiedName?_of_pieces {cs name : List Char} {segments : List (List Char)}
    {wildcard : Bool}
    (pieces : (splitChars '.' cs).map trimmed =
      name :: segments ++ if wildcard = true then [['*']] else [])
    (names : (name :: segments).all isName = true) (qualified : wildcard = true ∨ segments ≠ []) :
    ∃ path reference, qualifiedName? cs = some (path, reference) ∧
      path.toList = ['.'].intercalate (name :: segments) ∧ decide (reference = "*") = wildcard := by
  cases wildcard with
  | true =>
    rw [if_pos rfl] at pieces
    refine ⟨_, "*", ?_, toList_intercalate_dot _, rfl⟩
    rw [qualifiedName?, pieces]
    simp only [List.dropLast_concat, List.getLastD_concat]
    rw [if_neg (by simp [names]), if_pos trivial]
  | false =>
    rw [if_neg (by simp), List.append_nil] at pieces
    obtain ⟨init, last, rfl⟩ := List.eq_nil_or_concat' segments |>.resolve_left
      (qualified.resolve_left (by simp))
    rw [← List.cons_append, List.all_append, Bool.and_eq_true] at names
    have isLast : isName last = true := by simpa using names.2
    have star : last ≠ ['*'] := by
      rintro rfl
      exact absurd isLast (by decide)
    have read : qualifiedName? cs =
        some (String.intercalate "." ((name :: init).map String.ofList) ++ "." ++
          String.ofList last, String.ofList last) := by
      rw [qualifiedName?, pieces, ← List.cons_append]
      simp only [List.dropLast_concat, List.getLastD_concat]
      rw [if_neg (by simp [names.1]), if_neg star, if_pos isLast]
    refine ⟨_, _, read, ?_, decide_eq_false fun e ↦ star (by simpa using congrArg String.toList e)⟩
    · rw [String.toList_append, String.toList_append, toList_intercalate_dot, String.toList_ofList,
        ← List.cons_append, Text.intercalate_append (by simp) (by simp)]
      simp

theorem separators : isBlank '.' = false ∧ isBlank ';' = false ∧ isNameChar ';' = false := by decide

/-- These words put the pieces behind a name, whatever blanks there are around. -/
structure GoesOn (taken : List Word) (pieces : List (List Char)) : Prop where
  split : ∀ gap name gap' : List Char, gap.all isBlank = true → isName name = true →
    gap'.all isBlank = true →
      (splitChars '.' (gap ++ name ++ (textFrom taken ++ gap'))).map trimmed = name :: pieces
  apart : ∀ gap' : List Char, gap'.all isBlank = true →
    (textFrom taken ++ gap').head?.any isNameChar = false
  semicolon : ';' ∉ textFrom taken

theorem any_isNameChar_of_blank {gap more : List Char} (h : gap.all isBlank = true)
    (hm : more.head?.any isNameChar = false) : (gap ++ more).head?.any isNameChar = false := by
  cases gap with
  | nil => exact hm
  | cons c gap =>
    rw [List.all_cons, Bool.and_eq_true] at h
    exact isNameChar_of_isBlank h.1

theorem goesOn_nil : GoesOn [] [] where
  split gap name gap' hgap hname hgap' := by
    have undotted : '.' ∉ gap ++ name ++ gap' := by
      simp [notMem_of_blank hgap, dot_notMem_of_isName hname, notMem_of_blank hgap', separators]
    rw [textFrom, List.flatMap_nil, List.nil_append, Text.splitChars_of_notMem undotted,
      List.map_singleton, trimmed_name hgap hgap' hname]
  apart gap' hgap' := by simpa [textFrom] using @any_isNameChar_of_blank gap' [] hgap' rfl
  semicolon := List.not_mem_nil

/-- Behind a name and blanks, a dot ends the first piece. -/
theorem goesOn_of_dot {gap : List Char} {more : List Char → List Char} {pieces : List (List Char)}
    (hgap : gap.all isBlank = true)
    (text : ∀ gap', textFrom taken ++ gap' = gap ++ '.' :: more gap')
    (split : ∀ gap', gap'.all isBlank = true → (splitChars '.' (more gap')).map trimmed = pieces)
    (semicolon : ';' ∉ textFrom taken) : GoesOn taken pieces where
  split front name gap' hfront hname hgap' := by
    have undotted : '.' ∉ front ++ name ++ gap := by
      simp [notMem_of_blank hfront, dot_notMem_of_isName hname, notMem_of_blank hgap, separators]
    rw [text, ← List.append_assoc, Text.splitChars_append, Text.splitChars_of_notMem undotted,
      List.map_append, List.map_singleton, trimmed_name hfront hgap hname, split gap' hgap']
    rfl
  apart gap' _ := by
    rw [text]
    exact any_isNameChar_of_blank hgap (by decide : isNameChar '.' = false)
  semicolon := semicolon

section dot

variable {d : Word} (dot : d.text.toList = ['.']) (hd : d.gap.toList.all isBlank = true)
  (hw : w.gap.toList.all isBlank = true)

include dot hd hw

theorem goesOn_star (star : w.text.toList = ['*']) : GoesOn [d, w] [['*']] := by
  refine @goesOn_of_dot [d, w] _ (fun gap' ↦ w.gap.toList ++ ['*'] ++ gap') _ hd
    (fun gap' ↦ by simp [textFrom, dot, star]) (fun gap' hgap' ↦ ?_) ?_
  · have undotted : '.' ∉ w.gap.toList ++ ['*'] ++ gap' := by
      simp [notMem_of_blank hw, notMem_of_blank hgap', separators]
    rw [Text.splitChars_of_notMem undotted, List.map_singleton,
      trimmed_eq hw hgap' (by simp) (by decide) (by decide)]
  · simp [textFrom, dot, star, notMem_of_blank hd, notMem_of_blank hw, separators]

theorem GoesOn.cons {pieces : List (List Char)} (h : GoesOn taken pieces)
    (name : isName w.text.toList = true) : GoesOn (d :: w :: taken) (w.text.toList :: pieces) := by
  refine @goesOn_of_dot (d :: w :: taken) _
    (fun gap' ↦ w.gap.toList ++ w.text.toList ++ (textFrom taken ++ gap')) _ hd
    (fun gap' ↦ by simp [textFrom_cons, dot]) (fun gap' hgap' ↦ h.split _ _ _ hw name hgap') ?_
  simp [textFrom_cons, dot, notMem_of_blank hd, notMem_of_blank hw,
    notMem_of_isName name, h.semicolon, separators]

end dot

/-- The segments that the parser reads behind a name are those that a line has between dots. -/
theorem goesOn_of_importPath {v : Word} {ws : List Word} {path s : String} {wildcard : Bool}
    (h : FromText (v :: ws)) (hp : importPath path ws = .ok ((s, wildcard), rest)) :
    ∃ taken segments, ws = taken ++ rest ∧ s = dotted path segments ∧
      ((textFrom taken).all isDeclarationChar = true →
      (∀ x ∈ segments, isName x.toList = true) ∧
        GoesOn taken (segments.map String.toList ++ if wildcard = true then [['*']] else [])) := by
  rw [importPath_eq] at hp
  cases hd : isAt (.punct .dot) ws with
  | false =>
    rw [bind_of_ok (eat_of_not_isAt hd), if_neg (by simp)] at hp
    cases hp
    exact ⟨[], [], rfl, by simp [dotted], fun _ ↦ ⟨by simp, goesOn_nil⟩⟩
  | true =>
    rw [bind_of_ok (eat_of_isAt hd), if_pos rfl, lookAhead_bind] at hp
    obtain ⟨d, vs, rfl, kind⟩ := exists_of_isAt hd
    have dot : d.text.toList = ['.'] := by
      have token := FromText.isToken h.of_cons
      rw [kind] at token
      exact toList_text_of_isToken token
    rw [List.tail_cons] at hp
    split at hp
    next star =>
      cases vs with
      | nil => cases star
      | cons w vs =>
        cases hp
        have text : w.text.toList = ['*'] := by
          rw [isAtText_cons, decide_eq_true_eq] at star
          exact congrArg (String.toList ∘ Prod.snd) star
        refine ⟨[d, w], [], rfl, by simp [dotted], fun plain ↦ ⟨by simp, ?_⟩⟩
        rw [textFrom_cons, textFrom_cons] at plain
        simp only [List.all_append, Bool.and_eq_true] at plain
        exact goesOn_star dot (gap_of_plain h plain.1).1 (gap_of_plain h.of_cons plain.2.2.1).1 text
    next =>
      obtain ⟨x, us, hi, hp⟩ := bind_eq_ok.1 hp
      obtain ⟨w, rfl, hw, rfl⟩ := ident_eq_ok.1 hi
      have token := FromText.isToken h.of_cons.of_cons
      rw [hw] at token
      obtain ⟨taken, segments, rfl, rfl, later⟩ := goesOn_of_importPath h.of_cons.of_cons hp
      refine ⟨d :: w :: taken, w.text :: segments, rfl, by rw [dotted_cons, String.append_assoc],
        fun plain ↦ ?_⟩
      rw [textFrom_cons, textFrom_cons] at plain
      simp only [List.all_append, Bool.and_eq_true] at plain
      obtain ⟨gapDot, -, gapName, plainName, plain⟩ := plain
      have name := isName_of_isToken token plainName
      obtain ⟨names, pieces⟩ := later plain
      exact ⟨List.forall_mem_cons.2 ⟨name, names⟩, .cons dot (gap_of_plain h gapDot).1
        (gap_of_plain h.of_cons gapName).1 pieces name⟩
termination_by ws.length

/-! ## Declarations -/

/-- A dotted name is its segments with dots between them. -/
theorem toList_dotted (first : String) (segments : List String) :
    (dotted first segments).toList =
    ['.'].intercalate (first.toList :: segments.map String.toList) := by
  induction segments generalizing first with
  | nil => simp [dotted]
  | cons x segments ih =>
    have step (pieces : List (List Char)) :
      ['.'].intercalate ((first ++ ("." ++ x)).toList :: pieces) =
        ['.'].intercalate (first.toList :: x.toList :: pieces) := by
      cases pieces <;> simp
    rw [dotted_cons, ih, step, List.map_cons]

/-- The words of an import declaration. -/
structure ImportWords (taken rest : List Word) (value : Import) (w : Word) (static : List Word)
    (first : Word) (tail : List Word) (stop : Word) : Prop where
  eq : taken = w :: (static ++ first :: (tail ++ [stop]))
  keyword : w.kind = .keyword .importWord
  static : static = [] ∧ value.isStatic = false ∨
    ∃ st, static = [st] ∧ st.kind = .keyword (.modifier .static) ∧ value.isStatic = true
  name : first.kind = .ident
  path : importPath first.text (tail ++ stop :: rest) =
    .ok ((value.path, value.wildcard), stop :: rest)
  stop : stop.kind = .punct .semi

/-- An import declaration that is read has these words and no others. -/
theorem exists_importWords {value : Import}
    (read : importDecl (taken ++ rest) = .ok (value, rest)) :
    ∃ w static first tail stop, ImportWords taken rest value w static first tail stop := by
  obtain ⟨_, vs, himport, behindImport⟩ := bind_eq_ok.1 read
  obtain ⟨isStatic, us, hstatic, behindStatic⟩ := bind_eq_ok.1 behindImport
  obtain ⟨_, xs, hfirst, behindFirst⟩ := bind_eq_ok.1 behindStatic
  obtain ⟨⟨path, wildcard⟩, ys, hpath, behindPath⟩ := bind_eq_ok.1 behindFirst
  obtain ⟨_, zs, hstop, last⟩ := bind_eq_ok.1 behindPath
  cases last
  obtain ⟨w, words, keyword, -⟩ := expect_eq_ok.1 himport
  obtain ⟨first, rfl, name, rfl⟩ := ident_eq_ok.1 hfirst
  obtain ⟨stop, rfl, hstop, -⟩ := expect_eq_ok.1 hstop
  obtain ⟨tail, rfl⟩ := (walks_importPath _).shortens _ _ _ hpath
  obtain ⟨static, rfl, kinds⟩ : ∃ static, vs = static ++ first :: (tail ++ stop :: rest) ∧
      (static = [] ∧ isStatic = false ∨
        ∃ st, static = [st] ∧ st.kind = .keyword (.modifier .static) ∧ isStatic = true) := by
    cases here : isAt (.keyword (.modifier .static)) vs with
    | false =>
      rw [eat_of_not_isAt here] at hstatic
      cases hstatic
      exact ⟨[], rfl, .inl ⟨rfl, rfl⟩⟩
    | true =>
      rw [eat_of_isAt here] at hstatic
      obtain ⟨st, vs, rfl, hst⟩ := exists_of_isAt here
      cases hstatic
      exact ⟨[st], rfl, .inr ⟨st, rfl, hst, rfl⟩⟩
  have eq : taken ++ rest = w :: (static ++ first :: (tail ++ [stop])) ++ rest := by
    rw [words]
    simp
  exact ⟨w, static, first, tail, stop, List.append_cancel_right eq, keyword, kinds,
    name, hpath, hstop⟩

namespace ImportWords

variable {value : Import} {static tail : List Word} {first stop : Word}
  (h : ImportWords taken rest value w static first tail stop)

include h

theorem words : taken ++ rest = w :: static ++ first :: (tail ++ stop :: rest) := by
  rw [h.eq]
  simp

theorem toList_stop (fromText : FromText (taken ++ rest)) : stop.text.toList = [';'] := by
  have e := h.words
  rw [← List.cons_append, ← List.append_assoc] at e
  have token := FromText.isToken (FromText.of_append (e ▸ fromText))
  rw [h.stop] at token
  exact toList_text_of_isToken token

/-- The text of a declaration ends in its semicolon. -/
theorem getLast?_sourceText (fromText : FromText (taken ++ rest)) :
    (sourceText taken).toList.getLast? = some ';' := by
  rw [h.eq, toList_sourceText, textFrom_append, textFrom_cons, textFrom_append, textFrom_cons,
    h.toList_stop fromText]
  simp [textFrom]

end ImportWords

/-- A name in front of which no `static` stands. -/
theorem splitStatic_of_name {name more : List Char} (hname : isName name = true)
    (ne : name ≠ "static".toList) (apart : more.head?.any isNameChar = false) :
    splitStatic (name ++ more) = (false, name ++ more) := by
  have word {front back : List Char} (all : front.all isNameChar = true)
      (stop : back.head?.any isNameChar = false) :
        (front ++ back).takeWhile isNameChar = front := by
    rw [List.takeWhile_append_of_pos (List.all_eq_true.1 all)]
    cases back with
    | nil => simp
    | cons c back => rw [List.takeWhile_cons_of_neg (by simpa using stop), List.append_nil]
  rw [splitStatic]
  cases h : afterWord? "static" (name ++ more) with
  | none => rfl
  | some rest =>
    obtain ⟨gap, e, nonempty, hgap, -⟩ := afterWord?_eq_some.1 h
    obtain ⟨c, gap, rfl⟩ := List.exists_cons_of_ne_nil nonempty
    rw [isName, Bool.and_eq_true] at hname
    have blank : isNameChar c = false :=
      isNameChar_of_isBlank (List.all_eq_true.1 hgap c List.mem_cons_self)
    have same := congrArg (List.takeWhile isNameChar) e
    rw [word hname.2 apart, List.append_assoc,
      @word "static".toList (c :: gap ++ rest) (by decide) blank] at same
    exact absurd same ne

/-- The modifier in front of a name is taken off together with the blanks behind it. -/
theorem splitStatic_of_static {gap name : List Char} (nonempty : gap ≠ [])
    (hgap : gap.all isBlank = true)
    (hname : name.head?.any isNameChar = true) :
    splitStatic ("static".toList ++ gap ++ name) = (true, name) := by
  have solid : name.head?.any isBlank = false := by
    cases name with
    | nil => cases hname
    | cons c name => exact isBlank_of_isNameChar hname
  rw [splitStatic, afterWord?_eq_some.2 ⟨gap, rfl, nonempty, hgap, solid⟩]
  exact if_pos hname

/-- A keyword and a word behind it are apart. -/
theorem gap_of_keyword {k : Keyword} (h : FromText (v :: w :: ws)) (hv : v.kind = .keyword k)
    (hw : w.kind = .ident ∨ ∃ k, w.kind = .keyword k)
    (plain : w.gap.toList.all isDeclarationChar = true) :
    w.gap.toList ≠ [] ∧ w.gap.toList.all isBlank = true := by
  obtain ⟨blank, touch⟩ := gap_of_plain h plain
  refine ⟨fun none ↦ ?_, blank⟩
  obtain ⟨k', follows⟩ := touch none
  have parts := (Lexer.wordKind_of_isToken (FromText.isToken h.of_cons) hw).1
  obtain ⟨c, cs, e⟩ :=
    List.exists_cons_of_ne_nil (Lexer.IsToken.ne_nil (FromText.isToken h.of_cons))
  rw [hv, e] at follows
  rw [e, List.all_cons, Bool.and_eq_true] at parts
  exact absurd ((follows c rfl).symm.trans parts.1) (by simp)

/-- The name of a declaration as a line has it, up to the semicolon. -/
structure NameFacts (name more : List Char) (value : Import) : Prop where
  isName : Imports.isName name = true
  notStatic : name ≠ "static".toList
  apart : more.head?.any isNameChar = false
  semicolon : ';' ∉ name ++ more
  reads : ∃ reference, qualifiedName? (name ++ more) = some (value.path, reference) ∧
    decide (reference = "*") = value.wildcard

/-- What the line pattern needs to know of the name is read off the words: the text from the
name to the semicolon has its pieces, with `*` as the last for a wildcard. -/
theorem nameFacts_of_importPath {first stop : Word} {tail : List Word} {value : Import}
    (h : FromText (first :: (tail ++ stop :: rest))) (kind : first.kind = .ident)
    (read : importPath first.text (tail ++ stop :: rest) = .ok ((value.path, value.wildcard),
      stop :: rest))
    (plain : (first.text.toList ++ (textFrom tail ++ stop.gap.toList)).all isDeclarationChar = true)
    (qualified : value.wildcard = true ∨ '.' ∈ value.path.toList) :
    NameFacts first.text.toList (textFrom tail ++ stop.gap.toList) value := by
  simp only [List.all_append, Bool.and_eq_true] at plain
  obtain ⟨plainName, plainTail, plainGap⟩ := plain
  have token := FromText.isToken h
  rw [kind] at token
  have name := isName_of_isToken token plainName
  have gap : stop.gap.toList.all isBlank = true := by
    obtain ⟨init, last, e⟩ := List.eq_nil_or_concat' (first :: tail) |>.resolve_left (by simp)
    rw [← List.cons_append, e, List.append_assoc] at h
    exact (gap_of_plain h.of_append plainGap).1
  obtain ⟨taken, segments, e, path, goesOn⟩ := goesOn_of_importPath h read
  obtain rfl := List.append_cancel_right e
  obtain ⟨names, goesOn⟩ := goesOn plainTail
  refine ⟨name, fun static ↦ ?_, goesOn.apart _ gap, ?_, ?_⟩
  · have word := (Lexer.wordKind_of_isToken token (.inl rfl)).2
    rw [static] at word
    exact absurd word (by decide)
  · simp [notMem_of_isName name, goesOn.semicolon, notMem_of_blank gap, separators]
  · have pieces := goesOn.split [] _ _ rfl name gap
    have more : value.wildcard = true ∨ segments.map String.toList ≠ [] := by
      refine qualified.imp_right fun dot none ↦ ?_
      rw [path, toList_dotted, none] at dot
      exact dot_notMem_of_isName name (by simpa using dot)
    have all : (first.text.toList :: segments.map String.toList).all isName = true := by
      simpa [name] using names
    obtain ⟨path', reference, found, e, star⟩ := qualifiedName?_of_pieces pieces all more
    obtain rfl : path' = value.path := by rw [← String.toList_inj, e, path, toList_dotted]
    exact ⟨reference, found, star⟩

/-- What a line states that starts with the words of a declaration. -/
theorem parse?_of_states {value : Import} {front cs gap written name more behind : List Char}
    (hfront : front.all isBlank = true) (states : States cs gap written behind)
    (static : splitStatic written = (value.isStatic, name ++ more))
    (facts : NameFacts name more value) :
    ∃ i, ImportLine.parse? (String.ofList (front ++ cs)) = some i ∧ i.declared = value := by
  obtain ⟨reference, reads, star⟩ := facts.reads
  refine ⟨_, parse?_eq_some.2 ⟨gap, written, behind, ?_, value.path, reference, ?_, rfl⟩, ?_⟩
  · rwa [String.toList_ofList, Text.dropBlanks_append hfront,
      Text.dropBlanks_eq_self (by rw [states.eq]; rfl)]
  · rw [static]
    exact reads
  · rw [ImportLine.declared, static, ImportLine.isWildcard, star]

/-- A declaration that is written with the characters of import lines and names something qualified
is read from the line that it starts. -/
theorem parse?_of_importDecl {value : Import} (h : FromText (taken ++ rest))
    (read : importDecl (taken ++ rest) = .ok (value, rest))
    (plain : (sourceText taken).toList.all isDeclarationChar = true)
    (qualified : value.wildcard = true ∨ '.' ∈ value.path.toList) {front behind : List Char}
    (hfront : front.all isBlank = true) (oneLine : '\n' ∉ behind) :
    ∃ i, ImportLine.parse? (String.ofList (front ++ (sourceText taken).toList ++ behind)) = some i ∧
      i.declared = value := by
  obtain ⟨w, static, first, tail, stop, is⟩ := exists_importWords read
  have semicolon := is.toList_stop h
  rw [is.words] at h
  have text : w.text.toList = "import".toList := by
    have token := FromText.isToken h
    rw [is.keyword] at token
    exact Lexer.toList_text_of_keyword token
  rw [is.eq, toList_sourceText, textFrom_append, textFrom_cons, textFrom_append,
    textFrom_cons, text,
    semicolon] at plain ⊢
  simp only [List.all_append, Bool.and_eq_true] at plain
  obtain ⟨-, plainStatic, plainGap, plainName, plainTail, plainStop, -⟩ := plain
  have facts := nameFacts_of_importPath h.of_append is.name is.path
    (by simp only [List.all_append, plainName, plainTail, plainStop]; rfl) qualified
  obtain ⟨c, cs, e, hc⟩ := exists_cons_of_isName facts.isName
  -- With and without `static` the words behind it are the same; it adds one word and one gap.
  rcases is.static with ⟨rfl, isStatic⟩ | ⟨st, rfl, hst, isStatic⟩
  · obtain ⟨nonempty, blank⟩ := gap_of_keyword h is.keyword (.inl is.name) plainGap
    have states : States ("import".toList ++ first.gap.toList ++
        (first.text.toList ++ (textFrom tail ++ stop.gap.toList) ++ ';' :: behind)) first.gap.toList
        (first.text.toList ++ (textFrom tail ++ stop.gap.toList)) behind :=
      ⟨rfl, nonempty, blank, by rw [e]; exact isBlank_of_isNameChar hc, facts.semicolon, oneLine⟩
    have split := splitStatic_of_name facts.isName facts.notStatic facts.apart
    rw [← isStatic] at split
    simpa [textFrom] using parse?_of_states hfront states split facts
  · rw [textFrom_cons] at plainStatic
    simp only [List.all_append, Bool.and_eq_true] at plainStatic
    have staticText : st.text.toList = "static".toList := by
      have token := FromText.isToken h.of_cons
      rw [hst] at token
      exact Lexer.toList_text_of_keyword token
    obtain ⟨nonempty, blank⟩ := gap_of_keyword h is.keyword (.inr ⟨_, hst⟩) plainStatic.1
    obtain ⟨nonempty', blank'⟩ := gap_of_keyword h.of_cons hst (.inl is.name) plainGap
    have states :
        States ("import".toList ++ st.gap.toList ++ ("static".toList ++ first.gap.toList ++
          (first.text.toList ++ (textFrom tail ++ stop.gap.toList)) ++ ';' :: behind)) st.gap.toList
          ("static".toList ++ first.gap.toList ++
            (first.text.toList ++ (textFrom tail ++ stop.gap.toList)))
          behind := by
      refine ⟨rfl, nonempty, blank, rfl, ?_, oneLine⟩
      rw [List.mem_append, not_or]
      exact ⟨by simp [notMem_of_blank blank', separators], facts.semicolon⟩
    have split := splitStatic_of_static nonempty' blank'
      (show (first.text.toList ++ (textFrom tail ++ stop.gap.toList)).head?.any isNameChar = true by
        rw [e]; exact hc)
    rw [← isStatic] at split
    simpa [textFrom, staticText] using parse?_of_states hfront states split facts

end PlatformOverlay.Imports
