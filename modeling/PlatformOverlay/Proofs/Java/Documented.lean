import PlatformOverlay.Java.Source
import PlatformOverlay.Proofs.Java.Located
import PlatformOverlay.Proofs.Java.Parser.WellFormed

/-!
# Comments stay with their declarations

The declarations of a file stand where the parser reads them from its words, one behind the other or
one inside the other (`TypesStand`, `MembersStand`).  Each is documented by the comments that lead
the first of its words, and no comment leads two words, so that no comment goes over to another
declaration (`parse_documents`).

Two things are put together that know nothing of each other.

* *Where declarations stand.* A `Site` is a declaration with the indices of its first word and of
  that behind its last. The sites are pinned to the rules of the parser: `TypesStand` begins with
  the word behind the package declaration and the imports, and each type, member and nested type
  stands where its rule has read it (`exists_typesStand_of_compilationUnit`).
* *What leads a word.* The comments of a text are known by their byte ranges, and those between a
  word and the word before it document the former if they start on a later line than the latter ends
  (`isTextOf_leading`). These are disjoint for different words (`disjoint_leading`).

`CommentsStay` is what comes of both, and its parts are invariants of ranges of words: sites of one
range lie behind those of another or inside one of them (`Placed.append`).

Several fields of one declaration have one site and one comment. That is the only case in which two
declarations share theirs (`SingleOrFields`).
-/

open PlatformOverlay.Java.Parser

namespace PlatformOverlay.Java

/-! ## All declarations of a file -/

def Member.doc : Member → Option Snippet
  | .item i => i.doc
  | .type t => t.doc

def Member.isField : Member → Bool
  | .item i => i.isField
  | .type _ => false

mutual

/-- The members and all members of types among them, in the order in which they begin. -/
def allMembers : List Member → List Member
  | [] => []
  | m :: ms => memberWithin m ++ allMembers ms

def memberWithin : Member → List Member
  | .item i => [.item i]
  | .type t => .type t :: typeWithin t

def typeWithin : TypeDecl → List Member
  | ⟨_, _, _, _, _, _, _, _, _, _, _, members⟩ => allMembers members

end

/-- The types of a file and all members. -/
def CompilationUnit.declarations (u : CompilationUnit) : List Member :=
  allMembers (u.types.map .type)

/-- All members of two lists are those of each. -/
theorem allMembers_append (ms ns : List Member) :
    allMembers (ms ++ ns) = allMembers ms ++ allMembers ns := by
  induction ms with
  | nil => rfl
  | cons m ms ih => rw [List.cons_append, allMembers, allMembers, ih, List.append_assoc]

theorem allMembers_type (t : TypeDecl) :
    allMembers [.type t] = .type t :: allMembers t.members := by
  cases t
  simp [allMembers, memberWithin, typeWithin]

theorem allMembers_items (is : List Item) : allMembers (is.map .item) = is.map .item := by
  induction is with
  | nil => rfl
  | cons i is ih =>
    rw [List.map_cons, allMembers, ih]
    rfl

/-! ## Where declarations stand -/

/-- A declaration, with the indices of its first word and of that behind its last. -/
structure Site where
  first : Nat
  next : Nat
  /-- Several fields, if the declaration has several declarators. -/
  declared : List Member

def TypeDecl.withBody (t : TypeDecl) (constants : Option Snippet) (inner : List Member) :
    TypeDecl :=
  { t with enumConstants := constants, members := inner }

def Parser.constantsOf (t : TypeDecl) : Parser (Option Snippet) :=
  if t.kind = .enumType then enumConstants else pure none

/-- The package declaration and the imports in front of the types.  Where the annotations and
modifiers of a type come first there are none, and these are still to be read. -/
def Parser.fileHead : Parser (Option String × List Import) := do
  let start ← get
  let (annotations, modifiers) ← modifiers
  if ← eat (.keyword .packageWord) then
    let package ← qualifiedName "package name"
    let _ ← expect (.punct .semi) "';'"
    return (some package, ← imports ())
  else if annotations.isEmpty ∧ modifiers.isEmpty then
    return (none, ← imports ())
  else
    set start
    return (none, [])

/-- A type up to its first member, with its enum constants. -/
def Parser.typeHead : Parser (TypeDecl × Option Snippet) := do
  let doc ← lookAhead fun ws ↦ ws.head?.bind Word.doc
  let (annotations, modifiers) ← modifiers
  match ← lookAhead typeKindAt with
  | none => failExpecting "class, interface, enum or record"
  | some (kind, n) =>
      skip n
      let name ← ident "type name"
      let decl ← clauses { TypeDecl.bare kind name with doc, annotations, modifiers }
      let _ ← expect (.punct .lbrace) "'\x7b'"
      let constants ← constantsOf decl
      return (decl, constants)

/-- The members of a type stand from one word up to another, behind the brace that ends the type,
and with what is inside them they have these sites. -/
inductive MembersStand (words : List Word) :
    TypeDecl → Nat → List Member → Nat → List Site → Prop where
  | close {owner : TypeDecl} {i : Nat} (here : isAt (.punct .rbrace) (words.drop i) = true) :
      MembersStand words owner i [] (i + 1) []
  | semi {owner : TypeDecl} {i j : Nat} {ms : List Member} {ss : List Site}
      (here : isAt (.punct .semi) (words.drop i) = true)
      (rest : MembersStand words owner (i + 1) ms j ss) : MembersStand words owner i ms j ss
  | items {owner : TypeDecl} {i j k : Nat} {is : List Item} {ms : List Member} {ss : List Site}
      (read : member members owner (words.drop i) = .ok (is.map .item, words.drop j))
      (rest : MembersStand words owner j ms k ss) :
      MembersStand words owner i (is.map .item ++ ms) k (⟨i, j, is.map .item⟩ :: ss)
  | type {owner decl : TypeDecl} {constants : Option Snippet} {i j k l : Nat}
      {inner ms : List Member} {ss ss' : List Site}
      (head : typeHead (words.drop i) = .ok ((decl, constants), words.drop j))
      (body : MembersStand words decl j inner k ss) (rest : MembersStand words owner k ms l ss') :
      MembersStand words owner i (.type (decl.withBody constants inner) :: ms) l
        (⟨i, k, [.type (decl.withBody constants inner)]⟩ :: (ss ++ ss'))

/-- The types stand from one word up to the last, with the sites of what is inside them. -/
inductive TypesStand (words : List Word) : Nat → List TypeDecl → List Site → Prop where
  | nil {i : Nat} (here : words.drop i = []) : TypesStand words i [] []
  | semi {i : Nat} {ts : List TypeDecl} {ss : List Site}
      (here : isAt (.punct .semi) (words.drop i) = true) (rest : TypesStand words (i + 1) ts ss) :
      TypesStand words i ts ss
  | cons {decl : TypeDecl} {constants : Option Snippet} {i j k : Nat} {inner : List Member}
      {ts : List TypeDecl} {ss ss' : List Site}
      (head : typeHead (words.drop i) = .ok ((decl, constants), words.drop j))
      (body : MembersStand words decl j inner k ss) (rest : TypesStand words k ts ss') :
      TypesStand words i (decl.withBody constants inner :: ts)
        (⟨i, k, [.type (decl.withBody constants inner)]⟩ :: (ss ++ ss'))

variable {α : Type} {words : List Word} {i j k : Nat}

/-! ## Cursors in the words -/

/-- What a reader leaves is the list of words from some later index on. -/
theorem exists_drop {p : Parser α} {a : α} {rest : List Word} (hp : Shortens p)
    (bound : i ≤ words.length) (h : p (words.drop i) = .ok (a, rest)) :
    ∃ j, i ≤ j ∧ j ≤ words.length ∧ rest = words.drop j := by
  have suffix := hp _ _ _ h
  have le := suffix.length_le
  rw [List.length_drop] at le
  refine ⟨words.length - rest.length, by omega, by omega, ?_⟩
  exact List.suffix_iff_eq_drop.1 (suffix.trans (List.drop_suffix i words))

/-- An index is given by the words from it on. -/
theorem eq_of_drop_eq (hi : i ≤ words.length) (hj : j ≤ words.length)
    (h : words.drop i = words.drop j) : i = j := by
  have := congrArg List.length h
  rw [List.length_drop, List.length_drop] at this
  omega

/-- A reader that takes a word moves the index on. -/
theorem lt_of_advances {p : Parser α} {a : α} (hp : Advances p)
    (h : p (words.drop i) = .ok (a, words.drop j)) : i < j := by
  have lt := (hp _ _ _ h).2
  rw [List.length_drop, List.length_drop] at lt
  omega

theorem exists_drop_of_advances {p : Parser α} {a : α} {rest : List Word} (hp : Advances p)
    (bound : i ≤ words.length) (h : p (words.drop i) = .ok (a, rest)) :
    ∃ j, i < j ∧ j ≤ words.length ∧ rest = words.drop j := by
  obtain ⟨j, -, le, rfl⟩ := exists_drop hp.shortens bound h
  exact ⟨j, lt_of_advances hp h, le, rfl⟩

/-! ## Heads of types -/

/-- The clauses of a header leave the comment in front of it as it is. -/
theorem clauses_doc {decl decl' : TypeDecl} {ws rest : List Word}
    (h : clauses decl ws = .ok (decl', rest)) : decl'.doc = decl.doc := by
  have all : ∀ n decl ws, unfolded clausesRule n decl ws = .ok (decl', rest) →
      decl'.doc = decl.doc := by
    intro n
    induction n with
    | zero => exact fun _ _ h ↦ (fail_ne_ok h).elim
    | succ n ih =>
      intro decl ws h
      have list (next : List String → TypeDecl) (same : ∀ l, (next l).doc = decl.doc)
          (h : (do skip 1; let l ← typeList (); unfolded clausesRule n (next l) :
            Parser TypeDecl) ws = .ok (decl', rest)) : decl'.doc = decl.doc := by
        rw [skip_bind] at h
        obtain ⟨l, vs, -, h⟩ := bind_eq_ok.1 h
        exact (ih _ vs h).trans (same l)
      rw [unfolded, clausesRule, get_bind] at h
      split at h
      · cases h
        rfl
      split at h
      · obtain ⟨_, vs, -, h⟩ := bind_eq_ok.1 h
        have later := ih _ vs h
        exact later
      split at h
      · obtain ⟨_, vs, -, h⟩ := bind_eq_ok.1 h
        have later := ih _ vs h
        exact later
      split at h
      · exact list (fun l ↦ { decl with extending := l }) (fun _ ↦ rfl) h
      split at h
      · exact list (fun l ↦ { decl with implementing := l }) (fun _ ↦ rfl) h
      split at h
      · exact list (fun l ↦ { decl with permitting := l }) (fun _ ↦ rfl) h
      · exact (failExpecting_ne_ok h).elim
  exact all _ decl ws h

/-- The constants of an enum are read without a step back, and those of other types not at all. -/
theorem walks_constantsOf (t : TypeDecl) : Walks (constantsOf t) := by
  intro F ws
  exact .ite (fun _ ↦ walks_enumConstants F ws) fun _ ↦ .pure

/-- A head takes at least the name of the type. -/
theorem strides_typeHead : Strides typeHead := by
  intro F ws
  refine .lookAhead_bind (.bind_right (walks_modifiers F ws) fun lead vs _ ↦ .lookAhead_bind ?_)
  cases typeKindAt vs with
  | none => exact .failExpecting
  | some r =>
    refine .bind_right .skip fun _ us _ ↦ .bind .expect fun name xs _ ↦ ?_
    refine .bind (walks_clauses _ F xs) fun decl ys _ ↦ ?_
    refine .bind (Takes.expect).within fun _ zs _ ↦ ?_
    exact .bind (walks_constantsOf _ F zs) fun _ _ _ ↦ .pure

/-- A type takes the comments in front of its first word. -/
theorem doc_of_typeHead {decl : TypeDecl} {constants : Option Snippet} {ws rest : List Word}
    (h : typeHead ws = .ok ((decl, constants), rest)) : decl.doc = ws.head?.bind Word.doc := by
  rw [typeHead, lookAhead_bind] at h
  obtain ⟨⟨annotations, modifiers⟩, vs, -, h₁⟩ := bind_eq_ok.1 h
  dsimp only at h₁
  rw [lookAhead_bind] at h₁
  cases hk : typeKindAt vs with
  | none =>
    rw [hk] at h₁
    exact (failExpecting_ne_ok h₁).elim
  | some r =>
    rw [hk] at h₁
    obtain ⟨_, _, -, h₂⟩ := bind_eq_ok.1 h₁
    obtain ⟨name, _, -, h₃⟩ := bind_eq_ok.1 h₂
    obtain ⟨decl', _, hc, h₄⟩ := bind_eq_ok.1 h₃
    obtain ⟨_, _, -, h₅⟩ := bind_eq_ok.1 h₄
    obtain ⟨_, _, -, e⟩ := bind_eq_ok.1 h₅
    cases e
    exact clauses_doc hc

/-- The rule for a body without the recursion. -/
theorem typeBody_eq {decl : TypeDecl} {ws : List Word} : typeBody members decl ws =
    (do
      let _ ← expect (.punct .lbrace) "'\x7b'"
      let constants ← constantsOf decl
      return decl.withBody constants (← members decl) : Parser TypeDecl) ws := by
  refine congrArg (fun f ↦ (expect (.punct .lbrace) "'\x7b'" >>= f) ws) (funext fun _ ↦ ?_)
  dsimp only
  rw [constantsOf]
  split <;> rfl

/-- A type is its head and its members. -/
theorem exists_head_of_typeDecl {ws vs rest : List Word} {annotations : List Annotation}
    {modifiers : Modifiers} {t : TypeDecl}
    (hm : Parser.modifiers ws = .ok ((annotations, modifiers), vs))
    (ht : typeDecl members (ws.head?.bind Word.doc) annotations modifiers vs = .ok (t, rest)) :
    ∃ decl constants inner us, typeHead ws = .ok ((decl, constants), us) ∧
      members decl us = .ok (inner, rest) ∧ t = decl.withBody constants inner := by
  rw [typeDecl, lookAhead_bind] at ht
  cases hk : typeKindAt vs with
  | none =>
    rw [hk] at ht
    exact (failExpecting_ne_ok ht).elim
  | some r =>
    rw [hk] at ht
    obtain ⟨_, _, hs, h₁⟩ := bind_eq_ok.1 ht
    obtain ⟨name, _, hn, h₂⟩ := bind_eq_ok.1 h₁
    obtain ⟨decl, _, hc, h₃⟩ := bind_eq_ok.1 h₂
    rw [typeBody_eq] at h₃
    obtain ⟨_, _, ho, h₄⟩ := bind_eq_ok.1 h₃
    obtain ⟨constants, us, hcs, h₅⟩ := bind_eq_ok.1 h₄
    obtain ⟨inner, _, hi, e⟩ := bind_eq_ok.1 h₅
    cases e
    refine ⟨decl, constants, inner, us, ?_, hi, rfl⟩
    rw [typeHead, lookAhead_bind, bind_of_ok hm]
    dsimp only
    rw [lookAhead_bind, hk]
    dsimp only
    rw [bind_of_ok hs, bind_of_ok hn, bind_of_ok hc, bind_of_ok ho, bind_of_ok hcs]
    rfl

theorem declarators_ne_nil {type name : String} {column : Nat} {fs : List Field}
    {ws rest : List Word} (h : declarators type column name ws = .ok (fs, rest)) : fs ≠ [] := by
  rw [declarators_eq] at h
  obtain ⟨_, _, _, h₁⟩ := bind_eq_ok.1 h
  obtain ⟨_, _, _, h₂⟩ := bind_eq_ok.1 h₁
  obtain ⟨comma, _, _, h₃⟩ := bind_eq_ok.1 h₂
  cases comma with
  | true =>
    obtain ⟨_, _, _, h₄⟩ := bind_eq_ok.1 h₃
    obtain ⟨_, _, _, e⟩ := bind_eq_ok.1 h₄
    cases e
    exact List.cons_ne_nil _ _
  | false =>
    obtain ⟨_, _, _, e⟩ := bind_eq_ok.1 h₃
    cases e
    exact List.cons_ne_nil _ _

/-- One content, or some fields. -/
def SingleOrFields (cs : List Content) : Prop :=
  (∃ c, cs = [c]) ∨ ∃ fs : List Field, fs ≠ [] ∧ cs = fs.map .field

/-- Several contents of one declaration are fields. -/
theorem singleOrFields_of_contents {owner : TypeDecl} {column : Nat} {cs : List Content}
    {ws rest : List Word} (h : contents owner column ws = .ok (cs, rest)) : SingleOrFields cs := by
  have after {typeParams : Option String} {ws : List Word}
      (h : contentsAfter owner column typeParams ws = .ok (cs, rest)) : SingleOrFields cs := by
    rw [contentsAfter, lookAhead_bind] at h
    split at h
    · obtain ⟨c, _, _, e⟩ := bind_eq_ok.1 h
      cases e
      exact .inl ⟨_, rfl⟩
    · obtain ⟨_, _, _, h₁⟩ := bind_eq_ok.1 h
      obtain ⟨_, _, _, h₂⟩ := bind_eq_ok.1 h₁
      rw [lookAhead_bind] at h₂
      split at h₂
      · obtain ⟨m, _, _, e⟩ := bind_eq_ok.1 h₂
        cases e
        exact .inl ⟨_, rfl⟩
      · obtain ⟨fs, _, hfs, e⟩ := bind_eq_ok.1 h₂
        cases e
        exact .inr ⟨fs, declarators_ne_nil hfs, rfl⟩
  rw [contents_eq] at h
  split at h
  · obtain ⟨_, _, _, h₁⟩ := bind_eq_ok.1 h
    exact after h₁
  · exact after h

/-- Items that are read with one comment in front of them: one item, or some fields. -/
structure DocumentedBy (doc : Option Snippet) (is : List Item) : Prop where
  doc : ∀ i ∈ is, i.doc = doc
  single : (∃ i, is = [i]) ∨ is ≠ [] ∧ ∀ i ∈ is, i.isField

/-- Contents that share their comments are documented by them, several only if they are fields. -/
theorem documentedBy_map {cs : List Content} (kinds : SingleOrFields cs) (doc : Option Snippet)
    (annotations : List Annotation) (modifiers : Modifiers) :
    DocumentedBy doc (cs.map fun c ↦ ⟨doc, annotations, modifiers, c⟩) := by
  refine ⟨fun i hi ↦ ?_, ?_⟩
  · obtain ⟨_, _, rfl⟩ := List.mem_map.1 hi
    rfl
  · rcases kinds with ⟨c, rfl⟩ | ⟨fs, ne, rfl⟩
    · exact .inl ⟨_, rfl⟩
    · refine .inr ⟨by simpa using ne, fun i hi ↦ ?_⟩
      obtain ⟨_, hc, rfl⟩ := List.mem_map.1 hi
      obtain ⟨_, _, rfl⟩ := List.mem_map.1 hc
      rfl

/-- What is read as a member: items, or a type. -/
theorem member_cases {owner : TypeDecl} {ms : List Member} {ws rest : List Word}
    (h : member members owner ws = .ok (ms, rest)) :
    (∃ is : List Item, ms = is.map .item ∧ DocumentedBy (ws.head?.bind Word.doc) is) ∨
      ∃ decl constants inner us, typeHead ws = .ok ((decl, constants), us) ∧
        members decl us = .ok (inner, rest) ∧ ms = [.type (decl.withBody constants inner)] := by
  rw [member, lookAhead_bind, lookAhead_bind] at h
  obtain ⟨⟨annotations, modifiers⟩, vs, hmod, h₁⟩ := bind_eq_ok.1 h
  dsimp only at h₁
  rw [get_bind] at h₁
  have items {cs : List Content} (kinds : SingleOrFields cs)
      (e : ms = cs.map fun c ↦
        .item ⟨ws.head?.bind Word.doc, annotations, modifiers, c⟩) :
      ∃ is : List Item, ms = is.map .item ∧ DocumentedBy (ws.head?.bind Word.doc) is := by
    refine ⟨_, ?_, documentedBy_map kinds _ annotations modifiers⟩
    rw [e, List.map_map]
    rfl
  split at h₁
  · obtain ⟨b, _, _, e⟩ := bind_eq_ok.1 h₁
    exact .inl (items (.inl ⟨.initializer b, rfl⟩) (Prod.mk.inj (Except.ok.inj e)).1.symm)
  split at h₁
  · obtain ⟨t, vs, ht, e⟩ := bind_eq_ok.1 h₁
    obtain ⟨rfl, rfl⟩ := Prod.mk.inj (Except.ok.inj e)
    obtain ⟨decl, constants, inner, us, head, body, rfl⟩ := exists_head_of_typeDecl hmod ht
    exact .inr ⟨decl, constants, inner, us, head, body, rfl⟩
  · obtain ⟨cs, _, hcs, e⟩ := bind_eq_ok.1 h₁
    exact .inl (items (singleOrFields_of_contents hcs) (Prod.mk.inj (Except.ok.inj e)).1.symm)

/-! ## Standing declarations -/

/-- A token that may be there has been taken or is not there. -/
theorem eat_cases {kind : TokenKind} {took : Bool} {rest : List Word}
    (h : eat kind (words.drop i) = .ok (took, rest)) :
    took = true ∧ isAt kind (words.drop i) = true ∧ rest = words.drop (i + 1) ∨
      took = false ∧ rest = words.drop i := by
  cases hk : isAt kind (words.drop i) with
  | true =>
    rw [eat_of_isAt hk] at h
    cases h
    exact .inl ⟨rfl, rfl, List.tail_drop⟩
  | false =>
    rw [eat_of_not_isAt hk] at h
    cases h
    exact .inr ⟨rfl, rfl⟩

/-- Members take words: at least the brace behind them. -/
theorem MembersStand.lt {owner : TypeDecl} {ms : List Member} {ss : List Site}
    (h : MembersStand words owner i ms j ss) : i < j := by
  induction h with
  | close here => exact Nat.lt_succ_self _
  | semi here rest ih => exact Nat.lt_of_succ_lt ih
  | items read rest ih =>
    exact (lt_of_advances (strides_member _).advances read).trans ih
  | type head body rest ih ih' =>
    exact (lt_of_advances strides_typeHead.advances head).trans (ih.trans ih')

theorem MembersStand.le {owner : TypeDecl} {ms : List Member} {ss : List Site}
    (h : MembersStand words owner i ms j ss) : j ≤ words.length := by
  induction h with
  | close here => exact lt_length_of_isAt here
  | semi here rest ih => exact ih
  | items read rest ih => exact ih
  | type head body rest ih ih' => exact ih'

/-- Members that are read stand where they are read. -/
theorem exists_membersStand (bound : i ≤ words.length) {owner : TypeDecl} {ms : List Member}
    {rest : List Word} (h : members owner (words.drop i) = .ok (ms, rest)) :
    ∃ j ss, rest = words.drop j ∧ MembersStand words owner i ms j ss := by
  induction left : words.length - i using Nat.strong_induction_on generalizing i owner ms rest with
  | h n ih =>
    have later {k : Nat} (lt : i < k) (le : k ≤ words.length) {owner : TypeDecl}
        {ms : List Member} {rest : List Word}
        (h : members owner (words.drop k) = .ok (ms, rest)) :
        ∃ j ss, rest = words.drop j ∧ MembersStand words owner k ms j ss :=
      ih (words.length - k) (by omega) le h rfl
    rw [members_eq] at h
    obtain ⟨semi, _, he, h₁⟩ := bind_eq_ok.1 h
    obtain ⟨rfl, here, rfl⟩ | ⟨rfl, rfl⟩ := eat_cases he
    · obtain ⟨j, ss, e, stand⟩ := later (Nat.lt_succ_self i) (lt_length_of_isAt here) h₁
      exact ⟨j, ss, e, .semi here stand⟩
    obtain ⟨brace, _, he', h₂⟩ := bind_eq_ok.1 h₁
    obtain ⟨rfl, here, rfl⟩ | ⟨rfl, rfl⟩ := eat_cases he'
    · cases h₂
      exact ⟨i + 1, [], rfl, .close here⟩
    rw [if_neg (by simp), lookAhead_bind] at h₂
    split at h₂
    · exact (fail_ne_ok h₂).elim
    obtain ⟨first, xs, hf, h₃⟩ := bind_eq_ok.1 h₂
    obtain ⟨ms, ys, hms, e⟩ := bind_eq_ok.1 h₃
    cases e
    obtain ⟨k, lt, le, rfl⟩ :=
      exists_drop_of_advances (strides_member owner).advances bound hf
    obtain ⟨l, ss', e, stand'⟩ := later lt le hms
    obtain ⟨is, rfl, -⟩ | ⟨decl, constants, inner, us, head, body, rfl⟩ := member_cases hf
    · exact ⟨l, _, e, .items hf stand'⟩
    · obtain ⟨j, lt₁, le₁, rfl⟩ := exists_drop_of_advances strides_typeHead.advances bound head
      obtain ⟨k', ss, e', stand⟩ := later lt₁ le₁ body
      obtain rfl := eq_of_drop_eq le stand.le e'
      exact ⟨l, _, e, .type head stand stand'⟩

/-- A type that is read stands where it was read, and the types behind it stand behind it. -/
theorem exists_typesStand_cons (bound : i ≤ words.length) {vs rest : List Word}
    {annotations : List Annotation} {modifiers : Modifiers} {t : TypeDecl} {ts : List TypeDecl}
    (hm : Parser.modifiers (words.drop i) = .ok ((annotations, modifiers), vs))
    (ht : typeDecl members ((words.drop i).head?.bind Word.doc) annotations modifiers vs =
      .ok (t, rest))
    (next : ∀ k, i < k → k ≤ words.length → rest = words.drop k → ∃ ss, TypesStand words k ts ss) :
    ∃ ss, TypesStand words i (t :: ts) ss := by
  obtain ⟨decl, constants, inner, us, head, body, rfl⟩ := exists_head_of_typeDecl hm ht
  obtain ⟨j, lt, le, rfl⟩ := exists_drop_of_advances strides_typeHead.advances bound head
  obtain ⟨k, ss, rfl, stand⟩ := exists_membersStand le body
  obtain ⟨ss', stand'⟩ := next k (lt.trans stand.lt) stand.le rfl
  exact ⟨_, .cons head stand stand'⟩

/-- Types that are read stand where they are read. -/
theorem exists_typesStand {ts : List TypeDecl} {rest : List Word} (bound : i ≤ words.length)
    (h : types () (words.drop i) = .ok (ts, rest)) : ∃ ss, TypesStand words i ts ss := by
  induction left : words.length - i using Nat.strong_induction_on generalizing i ts with
  | h n ih =>
    have later {k : Nat} {ts : List TypeDecl} (lt : i < k) (le : k ≤ words.length)
        (h : types () (words.drop k) = .ok (ts, rest)) : ∃ ss, TypesStand words k ts ss :=
      ih (words.length - k) (by omega) le h rfl
    rw [types_eq, lookAhead_bind] at h
    split at h
    · cases h
      exact ⟨[], .nil (List.isEmpty_iff.1 ‹_›)⟩
    obtain ⟨semi, vs, he, h₁⟩ := bind_eq_ok.1 h
    obtain ⟨rfl, here, rfl⟩ | ⟨rfl, rfl⟩ := eat_cases he
    · obtain ⟨ss, stand⟩ := later (Nat.lt_succ_self i) (lt_length_of_isAt here) h₁
      exact ⟨ss, .semi here stand⟩
    rw [if_neg (by simp), lookAhead_bind] at h₁
    obtain ⟨⟨annotations, modifiers⟩, us, hm, h₂⟩ := bind_eq_ok.1 h₁
    obtain ⟨t, xs, ht, h₃⟩ := bind_eq_ok.1 h₂
    obtain ⟨ts, ys, hts, e⟩ := bind_eq_ok.1 h₃
    cases e
    refine exists_typesStand_cons bound hm ht fun k lt le e ↦ ?_
    rw [e] at hts
    exact later lt le hts

/-! ## Sites -/

/-- One begins in front of the other, which lies behind it or inside. -/
def Site.Before (s s' : Site) : Prop :=
  s.first < s'.first ∧ (s.next ≤ s'.first ∨ s'.next ≤ s.next)

/-- A site with the comment in front of its first word. -/
structure Site.Documented (words : List Word) (s : Site) : Prop where
  lt : s.first < s.next
  doc : ∀ m ∈ s.declared, m.doc = words[s.first]?.bind Word.doc
  single : (∃ m, s.declared = [m]) ∨ s.declared ≠ [] ∧ ∀ m ∈ s.declared, m.isField

/-- The sites of some members and of those inside them, between two words. -/
structure Placed (words : List Word) (i j : Nat) (ms : List Member) (sites : List Site) :
    Prop where
  declared : sites.flatMap Site.declared = allMembers ms
  documented : ∀ s ∈ sites, s.Documented words
  within : ∀ s ∈ sites, i ≤ s.first ∧ s.next ≤ j
  ordered : sites.Pairwise Site.Before

namespace Placed

variable {ms ns : List Member} {ss ss' : List Site}

theorem nil : Placed words i j [] [] :=
  ⟨rfl, by simp, by simp, .nil⟩

/-- What stands in a range stands in a larger one. -/
theorem mono (h : Placed words i j ms ss) {i' j' : Nat} (hi : i' ≤ i) (hj : j ≤ j') :
    Placed words i' j' ms ss :=
  { h with within := fun s hs ↦ ⟨hi.trans (h.within s hs).1, (h.within s hs).2.trans hj⟩ }

/-- What stands in two ranges, one behind the other, stands in both together. -/
theorem append (h : Placed words i j ms ss) (h' : Placed words j k ns ss') (hi : i ≤ j)
    (hk : j ≤ k) : Placed words i k (ms ++ ns) (ss ++ ss') where
  declared := by rw [List.flatMap_append, h.declared, h'.declared, allMembers_append]
  documented := List.forall_mem_append.2 ⟨h.documented, h'.documented⟩
  within := List.forall_mem_append.2
    ⟨(h.mono (Nat.le_refl _) hk).within, (h'.mono hi (Nat.le_refl _)).within⟩
  ordered := by
    refine List.pairwise_append.2 ⟨h.ordered, h'.ordered, fun s hs s' hs' ↦ ?_⟩
    have lt := (h.documented s hs).lt
    have before := (h.within s hs).2
    have behind := (h'.within s' hs').1
    exact ⟨by omega, .inl (by omega)⟩

/-- Members that are no types. -/
theorem items {is : List Item} (lt : i < j)
    (h : DocumentedBy ((words.drop i).head?.bind Word.doc) is) :
    Placed words i j (is.map .item) [⟨i, j, is.map .item⟩] where
  declared := by rw [List.flatMap_singleton, allMembers_items]
  documented := by
    refine List.forall_mem_singleton.2 ⟨lt, fun m hm ↦ ?_, h.single.imp ?_ fun fields ↦ ?_⟩
    · obtain ⟨item, hi, rfl⟩ := List.mem_map.1 hm
      exact (h.doc item hi).trans (by rw [List.head?_drop])
    · rintro ⟨item, rfl⟩
      exact ⟨_, rfl⟩
    · refine ⟨by simpa using fields.1, fun m hm ↦ ?_⟩
      obtain ⟨item, hi, rfl⟩ := List.mem_map.1 hm
      exact fields.2 item hi
  within := List.forall_mem_singleton.2 ⟨Nat.le_refl _, Nat.le_refl _⟩
  ordered := List.pairwise_singleton _ _

theorem type {decl : TypeDecl} (constants : Option Snippet) (h : Placed words j k ms ss)
    (lt : i < j) (lt' : j < k) (doc : decl.doc = (words.drop i).head?.bind Word.doc) :
    Placed words i k [.type (decl.withBody constants ms)]
      (⟨i, k, [.type (decl.withBody constants ms)]⟩ :: ss) where
  declared := by
    rw [List.flatMap_cons, h.declared, allMembers_type, List.singleton_append]
    rfl
  documented := by
    rw [List.head?_drop] at doc
    exact List.forall_mem_cons.2
      ⟨⟨lt.trans lt', List.forall_mem_singleton.2 doc, .inl ⟨_, rfl⟩⟩, h.documented⟩
  within := List.forall_mem_cons.2 ⟨⟨Nat.le_refl _, Nat.le_refl _⟩,
    (h.mono (Nat.le_of_lt lt) (Nat.le_refl _)).within⟩
  ordered := List.pairwise_cons.2 ⟨fun s hs ↦
    ⟨Nat.lt_of_lt_of_le lt (h.within s hs).1, .inr (h.within s hs).2⟩, h.ordered⟩

end Placed

/-- The sites of members, at any depth, list each of them once and lie in the range of the
members. -/
theorem MembersStand.placed {owner : TypeDecl} {ms : List Member} {ss : List Site}
    (h : MembersStand words owner i ms j ss) : Placed words i j ms ss := by
  induction h with
  | close here => exact .nil
  | semi here rest ih => exact ih.mono (Nat.le_succ _) (Nat.le_refl _)
  | @items owner i j k is ms ss read rest ih =>
    have lt := lt_of_advances (strides_member owner).advances read
    obtain ⟨is', e, documented⟩ | ⟨_, _, _, _, _, _, e⟩ := member_cases read
    · obtain rfl := List.map_injective_iff.2 (fun _ _ ↦ Member.item.inj) e
      exact (Placed.items lt documented).append ih (Nat.le_of_lt lt) (Nat.le_of_lt rest.lt)
    · cases is <;> simp at e
  | @type owner decl constants i j k l inner ms ss ss' head body rest ih ih' =>
    have lt := lt_of_advances strides_typeHead.advances head
    have placed := ih.type constants lt body.lt (doc_of_typeHead head)
    exact placed.append ih' (Nat.le_of_lt (lt.trans body.lt)) (Nat.le_of_lt rest.lt)

theorem TypesStand.placed {ts : List TypeDecl} {ss : List Site} (h : TypesStand words i ts ss)
    (bound : i ≤ words.length) : Placed words i words.length (ts.map .type) ss := by
  induction h with
  | nil here => exact .nil
  | semi here rest ih =>
    exact (ih (lt_length_of_isAt here)).mono (Nat.le_succ _) (Nat.le_refl _)
  | @cons decl constants i j k inner ts ss ss' head body rest ih =>
    have lt := lt_of_advances strides_typeHead.advances head
    have placed := body.placed.type constants lt body.lt (doc_of_typeHead head)
    exact placed.append (ih body.le) (Nat.le_of_lt (lt.trans body.lt)) body.le

/-! ## Files -/

/-- Imports take words. -/
theorem length_lt_of_imports {is : List Import} {ws rest : List Word}
    (h : imports () ws = .ok (is, rest)) (ne : is ≠ []) : rest.length < ws.length := by
  rw [imports_eq] at h
  obtain ⟨semi, vs, he, h₁⟩ := bind_eq_ok.1 h
  cases semi with
  | true =>
    have le := (walks_imports.shortens _ _ _ h₁).length_le
    exact Nat.lt_of_le_of_lt le (length_lt_of_eat he)
  | false =>
    obtain rfl := eq_of_eat he
    rw [if_neg (by simp), lookAhead_bind] at h₁
    split at h₁
    · obtain ⟨i, us, hi, h₂⟩ := bind_eq_ok.1 h₁
      obtain ⟨is, xs, his, e⟩ := bind_eq_ok.1 h₂
      cases e
      have le := (walks_imports.shortens _ _ _ his).length_le
      exact Nat.lt_of_le_of_lt le (strides_importDecl.advances _ _ _ hi).2
    · cases h₁
      exact (ne rfl).elim

/-- The types of a file stand among its words, behind the package declaration and the imports. -/
theorem exists_typesStand_of_compilationUnit {u : CompilationUnit} {rest : List Word}
    (h : compilationUnit words = .ok (u, rest)) :
    ∃ i ss, i ≤ words.length ∧ fileHead words = .ok ((u.package, u.imports), words.drop i) ∧
      TypesStand words i u.types ss ∧
      if u.package.isSome ∨ u.imports ≠ [] then u.header = words[0]?.bind Word.doc ∧ 0 < i
      else u.header = none := by
  have bound : 0 ≤ words.length := Nat.zero_le _
  rw [← List.drop_zero (l := words), compilationUnit, lookAhead_bind] at h
  obtain ⟨⟨annotations, modifiers⟩, vs, hm, h₁⟩ := bind_eq_ok.1 h
  obtain ⟨i₁, -, bound₁, rfl⟩ := exists_drop walks_modifiers.shortens bound hm
  obtain ⟨package, us, he, h₂⟩ := bind_eq_ok.1 h₁
  have head : fileHead words = _ := (get_bind ..).trans
    ((bind_of_ok (by rwa [List.drop_zero] at hm)).trans (bind_of_ok he))
  obtain ⟨rfl, here, rfl⟩ | ⟨rfl, rfl⟩ := eat_cases he
  · obtain ⟨name, _, hn, h₃⟩ := bind_eq_ok.1 h₂
    obtain ⟨i₃, le₃, bound₃, rfl⟩ :=
      exists_drop (strides_qualifiedName _).shortens (lt_length_of_isAt here) hn
    obtain ⟨_, _, hs, h₄⟩ := bind_eq_ok.1 h₃
    obtain ⟨i₄, le₄, bound₄, rfl⟩ := exists_drop .expect bound₃ hs
    obtain ⟨is, _, hi, h₅⟩ := bind_eq_ok.1 h₄
    obtain ⟨i₅, le₅, bound₅, rfl⟩ := exists_drop walks_imports.shortens bound₄ hi
    obtain ⟨ts, _, ht, e⟩ := bind_eq_ok.1 h₅
    cases e
    obtain ⟨ss, stand⟩ := exists_typesStand bound₅ ht
    rw [if_pos rfl, bind_of_ok hn, bind_of_ok hs, bind_of_ok hi] at head
    refine ⟨i₅, ss, bound₅, head, stand, ?_⟩
    rw [if_pos (.inl rfl), List.drop_zero, List.head?_eq_getElem?]
    exact ⟨rfl, by omega⟩
  rw [if_neg (by simp)] at h₂ head
  split at h₂
  next nothing =>
    obtain ⟨is, _, hi, h₅⟩ := bind_eq_ok.1 h₂
    obtain ⟨i₂, le₂, bound₂, rfl⟩ := exists_drop walks_imports.shortens bound₁ hi
    obtain ⟨ts, _, ht, e⟩ := bind_eq_ok.1 h₅
    cases e
    obtain ⟨ss, stand⟩ := exists_typesStand bound₂ ht
    rw [if_pos nothing, bind_of_ok hi] at head
    refine ⟨i₂, ss, bound₂, head, stand, ?_⟩
    cases is with
    | nil => rfl
    | cons i is =>
      have shorter := length_lt_of_imports hi (List.cons_ne_nil i is)
      rw [List.length_drop, List.length_drop] at shorter
      rw [if_pos (.inr (List.cons_ne_nil i is)), List.drop_zero, List.head?_eq_getElem?]
      exact ⟨rfl, by omega⟩
  next something =>
    obtain ⟨t, _, ht, h₃⟩ := bind_eq_ok.1 h₂
    obtain ⟨ts, _, hts, e⟩ := bind_eq_ok.1 h₃
    cases e
    obtain ⟨ss, stand⟩ := exists_typesStand_cons bound hm ht fun k _ le e ↦
      exists_typesStand le (e ▸ hts)
    rw [if_neg something] at head
    exact ⟨0, ss, bound, head, stand, rfl⟩

/-- A comment text is tokenized into comments only. -/
theorem tokenize_of_isDoc {s : String} (h : IsDoc s) :
    ∃ cs, tokenize s = .ok ⟨cs, ""⟩ ∧ ∀ c ∈ cs, c.kind.isComment = true := by
  obtain ⟨cs, doc⟩ := h
  refine ⟨cs, tokenize_eq_ok.2 (Lexer.tokenizeChars_iff.2 ⟨?_, ?_, doc.chained⟩), doc.comments⟩
  · simp [doc.chars]
  · simp [Lexer.Skipped]

/-- The comments in front of a word of a text are a comment text. -/
theorem isDoc_of_word {d : Snippet} (h : FromText words) (hd : d ∈ words[i]?.bind Word.doc) :
    IsDoc d.text := by
  rw [← List.head?_drop] at hd
  exact isDoc_of_head (FromText.of_append (by rwa [List.take_append_drop])) hd

/-- The types and members of a file stand at the sites, from the word behind the package declaration
and the imports on, each documented by the comments that lead the first word of its site, and no
comment leads two of them. -/
structure CommentsStay (input : Input) (words : List Word) (u : CompilationUnit)
    (sites : List Site) : Prop where
  stand : ∃ i ≤ words.length, fileHead words = .ok ((u.package, u.imports), words.drop i) ∧
    TypesStand words i u.types sites
  declared : sites.flatMap Site.declared = u.declarations
  docs : ∀ s ∈ sites, ∀ m ∈ s.declared, IsTextOf input (input.leading s.first) m.doc
  single : ∀ s ∈ sites, (∃ m, s.declared = [m]) ∨ s.declared ≠ [] ∧ ∀ m ∈ s.declared, m.isField
  apart : sites.Pairwise fun s s' ↦ (input.leading s.first).Disjoint (input.leading s'.first)
  /-- The comments in front of a package declaration or an import belong to the file. -/
  header : if u.package.isSome ∨ u.imports ≠ [] then
      IsTextOf input (input.leading 0) u.header ∧
        ∀ s ∈ sites, (input.leading 0).Disjoint (input.leading s.first)
    else u.header = none
  comments : ∀ d, (d ∈ u.header ∨ ∃ m ∈ u.declarations, d ∈ m.doc) →
    ∃ cs, tokenize d.text = .ok ⟨cs, ""⟩ ∧ ∀ c ∈ cs, c.kind.isComment = true

/-- Words of a text whose types stand among them are documented as the text says. -/
theorem commentsStay_of_typesStand {text : String} {trailing : List Char} {ts : List Token}
    {u : CompilationUnit} {ss : List Site} (e : text.toList = charsOf ts ++ trailing)
    (hne : ∀ t ∈ ts, 0 < t.text.utf8ByteSize) (fromText : FromText (wordsOf ts))
    (bound : i ≤ (wordsOf ts).length)
    (head : fileHead (wordsOf ts) = .ok ((u.package, u.imports), (wordsOf ts).drop i))
    (stand : TypesStand (wordsOf ts) i u.types ss)
    (header : if u.package.isSome ∨ u.imports ≠ [] then
        u.header = (wordsOf ts)[0]?.bind Word.doc ∧ 0 < i
      else u.header = none) :
    CommentsStay (Input.ofTokens text ts) (wordsOf ts) u ss := by
  have placed := stand.placed bound
  refine ⟨⟨i, bound, head, stand⟩, placed.declared, fun s hs m hm ↦ ?_,
    fun s hs ↦ (placed.documented s hs).single,
    placed.ordered.imp fun before ↦ disjoint_leading text hne before.1, ?_, fun d hd ↦ ?_⟩
  · rw [(placed.documented s hs).doc m hm]
    exact isTextOf_leading e hne s.first
  · split at header
    · rw [if_pos ‹_›, header.1]
      exact ⟨isTextOf_leading e hne 0, fun s hs ↦
        disjoint_leading text hne (Nat.lt_of_lt_of_le header.2 (placed.within s hs).1)⟩
    · rw [if_neg ‹_›]
      exact header
  · refine tokenize_of_isDoc ?_
    rcases hd with hd | ⟨m, hm, hd⟩
    · split at header
      · rw [header.1] at hd
        exact isDoc_of_word fromText hd
      · rw [header] at hd
        cases hd
    · rw [CompilationUnit.declarations, ← placed.declared] at hm
      obtain ⟨s, hs, hm⟩ := List.mem_flatMap.1 hm
      rw [(placed.documented s hs).doc m hm] at hd
      exact isDoc_of_word fromText hd

/-- Comments stay with their declarations: each is documented by the comments that lead its first
word, and by no others. -/
theorem parse_documents {path : Path} {text : String} {u : CompilationUnit}
    (h : parse path text = .ok u) (other : isModuleInfo path = false) :
    ∃ lexed, tokenize text = .ok lexed ∧
      ∃ sites, CommentsStay (Input.ofTokens text lexed.tokens) (wordsOf lexed.tokens) u sites := by
  obtain ⟨lexed, rest, hlexed, hunit⟩ := parse_eq_ok other h
  obtain ⟨e, -, chained⟩ := Lexer.tokenizeChars_iff.1 (tokenize_eq_ok.1 hlexed)
  obtain ⟨i, ss, bound, head, stand, header⟩ := exists_typesStand_of_compilationUnit hunit
  exact ⟨lexed, hlexed, ss, commentsStay_of_typesStand e chained.utf8ByteSize_pos
    (fromText_of_tokenize hlexed) bound head stand header⟩

/-- A comment behind a field documents nothing, and two fields have one comment. -/
theorem parse_documents_class :
    let text := "// a\npackage b;\n/** c */\nclass A \x7b\n  int x; // d\n  // e\n  int y, z;\n\x7d"
    ∃ u, parse ⟨"A.java"⟩ text = .ok u ∧ isModuleInfo ⟨"A.java"⟩ = false ∧
      u.header = some ⟨"// a", 0⟩ ∧ u.declarations.map Member.doc =
        [some ⟨"/** c */", 0⟩, none, some ⟨"// e", 2⟩, some ⟨"// e", 2⟩] ∧
      ∃ lexed, tokenize text = .ok lexed ∧ ∃ sites,
        CommentsStay (Input.ofTokens text lexed.tokens) (wordsOf lexed.tokens) u sites := by
  intro text
  let tokens : List Token := [⟨.lineComment, "", "// a"⟩, ⟨.keyword .packageWord, "\n", "package"⟩,
    ⟨.ident, " ", "b"⟩, ⟨.punct .semi, "", ";"⟩, ⟨.blockComment, "\n", "/** c */"⟩,
    ⟨.keyword .classWord, "\n", "class"⟩, ⟨.ident, " ", "A"⟩, ⟨.punct .lbrace, " ", "\x7b"⟩,
    ⟨.ident, "\n  ", "int"⟩, ⟨.ident, " ", "x"⟩, ⟨.punct .semi, "", ";"⟩,
    ⟨.lineComment, " ", "// d"⟩, ⟨.lineComment, "\n  ", "// e"⟩, ⟨.ident, "\n  ", "int"⟩,
    ⟨.ident, " ", "y"⟩, ⟨.punct .comma, "", ","⟩, ⟨.ident, " ", "z"⟩, ⟨.punct .semi, "", ";"⟩,
    ⟨.punct .rbrace, "\n", "\x7d"⟩]
  let field (doc : Option Snippet) (name : String) : Member :=
    .item ⟨doc, [], .empty, .field ⟨"int", name, none⟩⟩
  let decl : TypeDecl := { TypeDecl.bare .classType "A" with
    doc := some ⟨"/** c */", 0⟩
    members := [field none "x", field (some ⟨"// e", 2⟩) "y", field (some ⟨"// e", 2⟩) "z"] }
  have words : compilationUnit (wordsOf tokens) =
    .ok (⟨some ⟨"// a", 0⟩, some "b", [], [], [decl]⟩, []) := rfl
  have read : parse ⟨"A.java"⟩ text = .ok ⟨some ⟨"// a", 0⟩, some "b", [], [], [decl]⟩ :=
    @parse_of_tokenizeChars _ _ _ ⟨tokens, ""⟩ [] (by decide +kernel) (by decide +kernel) words
  have other : isModuleInfo ⟨"A.java"⟩ = false := by decide +kernel
  exact ⟨_, read, other, rfl, rfl, parse_documents read other⟩

end PlatformOverlay.Java
