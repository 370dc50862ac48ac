import PlatformOverlay.Files.Store
import PlatformOverlay.Proofs.Files.Tree
import PlatformOverlay.Proofs.Path

/-!
# Where paths lead

A path that leads anywhere leads to its target, which its components give without looking at the
tree (`place_eq_ok`).  A path is plain if it never goes up.  Where the directory is there in which
the target of a plain path lies, the path leads to it (`place_of_parent`); else a file on the way or
the lack of a directory is why it does not (`place_of_no_parent`).

A path is followed piece by piece, and each step needs a directory to start from. So whether it
leads anywhere is a question about the tree, and where is not. For paths that go up the two cannot
be separated further: `a/b/..` leads to `a` only if `b` is a directory there.

For plain paths it comes down to one place. All that later modules use of them are questions about
the target alone (`isDir_iff`, `isFile_iff`, `read_of_file`).
-/

namespace PlatformOverlay

open Files

namespace Path

/-! ## Targets -/

def Component.apply (place : Place) : Component → Place
  | .root => []
  | .here => place
  | .up => place.dropLast
  | .name text => place ++ [text]

def walk (place : Place) (cs : List Component) : Place := cs.foldl Component.apply place

/-- Where a path leads if all directories on the way are there. -/
def target (current : Place) (p : Path) : Place := walk current p.components

/-- The path never goes up. -/
def Plain (p : Path) : Prop := .up ∉ p.components

instance (p : Path) : Decidable p.Plain := inferInstanceAs (Decidable (.up ∉ p.components))

/-- Where the way of a path starts. -/
def start (current : Place) (p : Path) : Place := if p.isAbsolute then [] else current

variable {current place : Place} {p a b : Path} {cs ds : List Component}

@[simp] theorem walk_nil : walk place [] = place := rfl

@[simp] theorem walk_cons {c : Component} : walk place (c :: cs) = walk (c.apply place) cs := rfl

/-- Walking a way is walking its front and from there the rest. -/
theorem walk_append : walk place (cs ++ ds) = walk (walk place cs) ds := List.foldl_append

/-- The names among components. -/
def names (cs : List Component) : Place := cs.filterMap Component.name?

@[simp] theorem names_nil : names [] = [] := rfl

@[simp] theorem names_cons_name {text : String} : names (.name text :: cs) = text :: names cs := rfl

@[simp] theorem names_cons_up : names (.up :: cs) = names cs := rfl

/-- The names of two ways one after the other. -/
theorem names_append : names (cs ++ ds) = names cs ++ names ds := List.filterMap_append

@[simp] theorem names_map_name : names (place.map .name) = place := by
  induction place with
  | nil => rfl
  | cons name place ih => rw [List.map_cons, names_cons_name, ih]

/-- Ways of names only are given by their names. -/
theorem map_names (inner : ∀ c ∈ cs, c.Inner) (up : .up ∉ cs) : (names cs).map .name = cs := by
  induction cs with
  | nil => rfl
  | cons c cs ih =>
    obtain ⟨first, rest⟩ := List.forall_mem_cons.1 inner
    have ih := ih rest (List.not_mem_of_not_mem_cons up)
    cases c with
    | root => exact absurd rfl first.1
    | here => exact absurd rfl first.2
    | up => simp at up
    | name text => rw [names_cons_name, List.map_cons, ih]

/-- A way that only goes down ends at its names behind the place it starts at. -/
theorem walk_of_names (root : .root ∉ cs) (up : .up ∉ cs) : walk place cs = place ++ names cs := by
  induction cs generalizing place with
  | nil => simp [names]
  | cons c cs ih =>
    have ih {place} := @ih place (by simp_all) (by simp_all)
    cases c with
    | root => simp at root
    | up => simp at up
    | here => exact ih
    | name text =>
      rw [walk_cons, ih]
      simp [Component.apply]

/-- Only the first component can be the root or a single dot. -/
theorem inner_of_tail {c : Component} (h : p.components = c :: cs) : ∀ d ∈ cs, d.Inner := by
  obtain ⟨first, rest, split⟩ := p.exists_split
  rw [components_eq split] at h
  intro d hd
  cases hf : (firstPiece first rest.isEmpty).component with
  | none =>
    rw [hf, Option.toList_none, List.nil_append] at h
    exact @Component.inner_of_mem d rest (h ▸ List.mem_cons_of_mem _ hd)
  | some c' =>
    rw [hf] at h
    obtain ⟨-, rfl⟩ := List.cons.inj h
    exact Component.inner_of_mem hd

/-- Absolute paths are those with the root as a component. -/
theorem isAbsolute_iff_root : p.isAbsolute = true ↔ .root ∈ p.components := by
  obtain ⟨first, rest, split⟩ := p.exists_split
  have behind : .root ∉ inner rest := fun h ↦ (Component.inner_of_mem h).1 rfl
  rw [isAbsolute_iff split, components_eq split, List.mem_append, or_iff_left behind,
    Option.mem_toList]
  constructor
  · rintro ⟨rfl, ne⟩
    rw [List.isEmpty_eq_false_iff.2 ne]
    rfl
  · intro h
    obtain rfl := eq_empty_of_component_root h
    refine ⟨rfl, ?_⟩
    rintro rfl
    cases h

/-- The target of a plain path lies below its start by the names of the path. -/
theorem target_of_plain (h : p.Plain) :
    p.target current = p.start current ++ names p.components := by
  unfold target start
  by_cases absolute : p.isAbsolute = true
  · rw [if_pos absolute]
    have root := isAbsolute_iff_root.1 absolute
    unfold Plain at h
    cases hc : p.components with
    | nil => simp [hc] at root
    | cons c cs =>
      have inner := inner_of_tail hc
      rw [hc] at root h
      obtain rfl : .root = c := (List.mem_cons.1 root).resolve_right fun h ↦ (inner _ h).1 rfl
      rw [walk_cons, walk_of_names (fun h ↦ (inner _ h).1 rfl) fun hm ↦
        h (List.mem_cons_of_mem _ hm)]
      rfl
  · rw [if_neg absolute]
    exact walk_of_names (mt isAbsolute_iff_root.2 absolute) h

/-! ## Steps -/

/-- A step of the resolution and the component of the same piece lead to the same place. -/
theorem apply_ofPiece (t : String) :
    (Step.ofPiece t).apply place = walk place (Component.ofPiece? t).toList := by
  unfold Step.ofPiece Component.ofPiece?
  split
  · rfl
  · split <;> rfl

theorem foldl_ofPiece (texts : List String) :
    (texts.map Step.ofPiece).foldl Step.apply place = walk place (inner texts) := by
  induction texts generalizing place with
  | nil => rfl
  | cons t ts ih =>
    rw [List.map_cons, List.foldl_cons, ih, apply_ofPiece, ← walk_append, inner, inner,
      List.filterMap_cons]
    cases Component.ofPiece? t <;> rfl

/-- The steps of a path lead to its target, when nothing on the way stops them. -/
theorem foldl_stepsOf : (stepsOf p).foldl Step.apply (p.start current) = p.target current := by
  obtain ⟨first, rest, split⟩ := p.exists_split
  rw [stepsOf, target, components_eq split, split, start]
  by_cases absolute : p.isAbsolute = true
  · obtain ⟨rfl, ne⟩ := (isAbsolute_iff split).1 absolute
    rw [if_pos absolute, if_pos absolute, List.tail_cons, foldl_ofPiece,
      List.isEmpty_eq_false_iff.2 ne]
    rfl
  · rw [if_neg absolute, if_neg absolute, foldl_ofPiece, walk_append, inner, List.filterMap_cons]
    by_cases empty : first = ""
    · have none : rest = [] := by_contra fun ne ↦ absolute ((isAbsolute_iff split).2 ⟨empty, ne⟩)
      rw [empty, none]
      rfl
    · rw [component_firstPiece_of_ne empty]
      by_cases here : first = "."
      · rw [if_pos here, ofPiece?_eq_none.2 (.inr here)]
        rfl
      · rw [if_neg here]
        cases Component.ofPiece? first <;> rfl

/-- A piece that names a component names one of the path. -/
theorem mem_components_of_mem {t : String} {c : Component} (h : t ∈ Text.splitOn '/' p.text)
    (hc : Component.ofPiece? t = some c) : c ∈ p.components := by
  obtain ⟨first, rest, split⟩ := p.exists_split
  rw [components_eq split, List.mem_append]
  rw [split] at h
  rcases List.mem_cons.1 h with rfl | h
  · have named : Component.ofPiece? t ≠ none := by simp [hc]
    obtain ⟨empty, here⟩ := not_or.1 (mt ofPiece?_eq_none.2 named)
    rw [component_firstPiece_of_ne empty, if_neg here, hc]
    simp
  · exact .inr (List.mem_filterMap.2 ⟨t, h, hc⟩)

theorem Trim.text_ne (h : p.Trim) : p.text ≠ "" := by
  intro empty
  unfold Trim at h
  rw [empty] at h
  exact h "" (by decide +kernel) rfl

theorem Plain.up_notMem (h : p.Plain) : .up ∉ stepsOf p := by
  intro hup
  have up : ".." ∈ Text.splitOn '/' p.text := by
    have : .up ∈ (Text.splitOn '/' p.text).map Step.ofPiece := by
      unfold stepsOf at hup
      split at hup
      · exact List.map_subset _ (List.tail_sublist _).subset hup
      · exact hup
    obtain ⟨t, ht, e⟩ := List.mem_map.1 this
    unfold Step.ofPiece at e
    split at e
    · cases e
    · split at e
      · rename_i up
        exact up ▸ ht
      · cases e
  exact h (mem_components_of_mem up rfl)

/-- The last step belongs to the last piece. -/
theorem exists_stepsOf_concat (p : Path) : ∃ front t, (Text.splitOn '/' p.text).getLast? = some t ∧
    stepsOf p = front ++ [Step.ofPiece t] := by
  obtain ⟨front, t, split⟩ :=
    (List.eq_nil_or_concat _).resolve_left (Text.splitOn_ne_nil '/' p.text)
  rw [List.concat_eq_append] at split
  have last : (Text.splitOn '/' p.text).getLast? = some t := by rw [split, List.getLast?_concat]
  rw [stepsOf, split]
  by_cases absolute : p.isAbsolute = true
  · have ne : front ≠ [] := by
      rintro rfl
      exact ((isAbsolute_iff split).1 absolute).2 rfl
    refine ⟨front.tail.map Step.ofPiece, t, by rw [← split, last], ?_⟩
    rw [if_pos absolute, List.tail_append_of_ne_nil ne, List.map_append, List.map_singleton]
  · refine ⟨front.map Step.ofPiece, t, by rw [← split, last], ?_⟩
    rw [if_neg absolute, List.map_append, List.map_singleton]

/-- The last step of a plain path that is trimmed is one to an entry of a directory. -/
theorem exists_stepsOf_eq (current : Place) (plain : p.Plain) (trim : p.Trim) : ∃ front name,
    stepsOf p = front ++ [.into name] ∧
      front.foldl Step.apply (p.start current) = (p.target current).dropLast ∧
      p.target current = (p.target current).dropLast ++ [name] := by
  obtain ⟨front, t, last, steps⟩ := p.exists_stepsOf_concat
  have into : Step.ofPiece t = .into t := by
    obtain ⟨c, hc⟩ := Option.ne_none_iff_exists'.1 (trim t last)
    have up : t ≠ ".." := by
      rintro rfl
      exact plain (mem_components_of_mem (List.mem_of_getLast? last) rfl)
    rw [Step.ofPiece, if_neg (mt ofPiece?_eq_none.2 (by simp [hc])), if_neg up]
  rw [into] at steps
  have target : p.target current = front.foldl Step.apply (p.start current) ++ [t] := by
    rw [← foldl_stepsOf, steps, List.foldl_append]
    rfl
  refine ⟨front, t, steps, ?_, ?_⟩ <;> rw [target, List.dropLast_concat]

end Path

namespace Files

/-! ## Slashes at the end -/

/-- Slashes at the end are no components. The text is read from the back, as the operation does. -/
theorem components_dropWhile_slash (cs : List Char) (ne : cs.dropWhile (· == '/') ≠ []) :
    Path.components ⟨String.ofList cs.reverse⟩ =
      Path.components ⟨String.ofList (cs.dropWhile (· == '/')).reverse⟩ := by
  induction cs with
  | nil => rfl
  | cons c cs ih =>
    by_cases slash : c = '/'
    · subst slash
      rw [List.dropWhile_cons_of_pos rfl] at ne ⊢
      have front : String.ofList cs.reverse ≠ "" := by
        rintro e
        have : cs = [] := by simpa using congrArg String.toList e
        simp [this] at ne
      rw [List.reverse_cons, String.ofList_append, ← ih ne]
      exact Path.components_append_slash front
    · rw [List.dropWhile_cons_of_neg (by simpa using slash)]

/-- A path and the same without its slashes at the end have the same components. -/
@[simp] theorem components_dropSlashes (p : Path) : (dropSlashes p).components = p.components := by
  unfold dropSlashes
  dsimp only
  split
  · rfl
  · rename_i ne
    have := components_dropWhile_slash p.text.toList.reverse (fun e ↦ ne (by rw [e]; rfl))
    rw [List.reverse_reverse, String.ofList_toList] at this
    exact this.symm

theorem dropSlashes_of_trim {p : Path} (h : p.Trim) : dropSlashes p = p := by
  have last : p.text.toList.reverse.dropWhile (· == '/') = p.text.toList.reverse := by
    cases hr : p.text.toList.reverse with
    | nil => rfl
    | cons c cs =>
      refine List.dropWhile_cons_of_neg fun slash ↦ ?_
      obtain rfl : c = '/' := by simpa using slash
      have text : p.text = String.ofList cs.reverse ++ "/" ++ "" := by
        have toList := congrArg List.reverse hr
        rw [List.reverse_reverse, List.reverse_cons] at toList
        simp [← String.toList_inj, toList]
      have split := Text.splitOn_append '/' (String.ofList cs.reverse) ""
      refine h "" ?_ rfl
      rw [text]
      exact (congrArg List.getLast? split).trans
        (by rw [show Text.splitOn '/' "" = [""] from rfl]; simp)
  simp [dropSlashes, last]

/-! ## Following steps -/

variable {root : Node} {place q : Place} {s : Step} {ss : List Step}

/-- A way that leads to its end goes from directory to directory. -/
theorem follow_eq_ok : follow root place ss = .ok q ↔ q = ss.foldl Step.apply place ∧
    ∀ front, front <+: ss → front ≠ ss → root.look (front.foldl Step.apply place) = some .dir := by
  induction ss generalizing place with
  | nil =>
    simp only [follow, List.prefix_nil, List.foldl_nil]
    constructor
    · rintro ⟨⟩
      exact ⟨rfl, fun front e ne ↦ absurd e ne⟩
    · rintro ⟨rfl, -⟩
      rfl
  | cons s ss ih =>
    have all : (∀ front, front <+: s :: ss → front ≠ s :: ss →
          root.look (front.foldl Step.apply place) = some .dir) ↔ root.look place = some .dir ∧
        ∀ front, front <+: ss → front ≠ ss →
          root.look (front.foldl Step.apply (s.apply place)) = some .dir := by
      constructor
      · refine fun h ↦ ⟨h [] List.nil_prefix (by simp), fun front hf ne ↦ ?_⟩
        exact h (s :: front) (List.cons_prefix_cons.2 ⟨rfl, hf⟩) (by simpa using ne)
      · rintro ⟨here, h⟩ front hf ne
        cases front with
        | nil => exact here
        | cons s' front =>
          obtain ⟨rfl, behind⟩ := List.cons_prefix_cons.1 hf
          exact h front behind (by simpa using ne)
    rw [all, follow]
    cases hn : root.get? place with
    | none => simp [Node.look, hn]
    | some node =>
      cases node with
      | file => simp [Node.look, hn, Node.stub]
      | dir es => simp [ih, Node.look, hn, Node.stub]

/-- A file stands on the way to a place, or at the place. -/
def Blocked (root : Node) (place : Place) : Prop :=
  ∃ q content, q <+: place ∧ root.look q = some (.file content)

/-- A proper front part is one of the parent. -/
theorem prefix_dropLast {α : Type} {q r : List α} (h : q <+: r) (ne : q ≠ r) :
    q <+: r.dropLast := by
  obtain ⟨s, rfl⟩ := h
  have hs : s ≠ [] := fun e ↦ ne (by simp [e])
  rw [List.dropLast_append_of_ne_nil hs]
  exact List.prefix_append q _

theorem not_prefix_dropLast {α : Type} {q : List α} (ne : q ≠ []) : ¬ q <+: q.dropLast := by
  intro h
  have le := h.length_le
  have pos := List.length_pos_iff.2 ne
  rw [List.length_dropLast] at le
  omega

/-- Where the directory is there, only a file at the place itself blocks it. -/
theorem blocked_iff (based : root.Based place) :
    Blocked root place ↔ ∃ content, root.look place = some (.file content) := by
  constructor
  · rintro ⟨q, content, hq, file⟩
    by_cases here : q = place
    · exact ⟨content, here ▸ file⟩
    · obtain rfl | parent := based
      · exact absurd (List.prefix_nil.1 hq) here
      · have := Node.look_dir_of_above parent (prefix_dropLast hq here)
        simp [this] at file
  · rintro ⟨content, file⟩
    exact ⟨place, content, List.prefix_rfl, file⟩

/-- Where nothing is at a place but its directory, nothing blocks what is below. -/
theorem not_blocked_of_none (based : root.Based place) (none : root.look place = none)
    (h : place <+: q) : ¬ Blocked root q := by
  rintro ⟨r, content, hr, file⟩
  rcases List.prefix_or_prefix_of_prefix hr h with above | below
  · obtain ⟨content, here⟩ := (blocked_iff based).1 ⟨r, content, above, file⟩
    simp [none] at here
  · obtain ⟨s, rfl⟩ := below
    by_cases hs : s = []
    · simp [hs, none] at file
    · have := @Node.look_of_append root place s (by simp [file]) hs
      simp [none] at this

/-- Steps that do not go up stay below where they start. -/
theorem prefix_foldl_apply (plain : .up ∉ ss) : place <+: ss.foldl Step.apply place := by
  induction ss generalizing place with
  | nil => exact List.prefix_rfl
  | cons s ss ih =>
    have ih {place} := @ih place (by simp_all)
    cases s with
    | stay => exact ih
    | up => simp at plain
    | into name => exact (List.prefix_append place [name]).trans ih

/-- Places on the way of steps that only go down lie above one another. -/
theorem foldl_apply_mono (plain : .up ∉ ss) {front : List Step} (h : front <+: ss) :
    front.foldl Step.apply place <+: ss.foldl Step.apply place := by
  obtain ⟨back, rfl⟩ := h
  rw [List.foldl_append]
  exact prefix_foldl_apply fun h ↦ plain (List.mem_append_right _ h)

/-- Why a way that never goes up does not lead to its end. -/
theorem follow_of_not_dir (based : root.Based place) (plain : .up ∉ ss) (ne : ss ≠ [])
    (missing : root.look (ss.dropLast.foldl Step.apply place) ≠ some .dir) :
    (Blocked root (ss.dropLast.foldl Step.apply place) →
      follow root place ss = .error .notADirectory) ∧
    (¬ Blocked root (ss.dropLast.foldl Step.apply place) →
      follow root place ss = .error .notFound) := by
  induction ss generalizing place with
  | nil => exact absurd rfl ne
  | cons s ss ih =>
    have plain' : .up ∉ (s :: ss).dropLast := fun h ↦ plain (List.dropLast_subset _ h)
    have front := @prefix_foldl_apply place _ plain'
    rw [follow]
    cases hn : root.get? place with
    | none =>
      have clear := not_blocked_of_none based (by simp [Node.look, hn]) front
      exact ⟨fun h ↦ absurd h clear, fun _ ↦ rfl⟩
    | some node =>
      cases node with
      | file content =>
        have blocked : Blocked root ((s :: ss).dropLast.foldl Step.apply place) :=
          ⟨place, content, front, by simp [Node.look, hn, Node.stub]⟩
        exact ⟨fun _ ↦ rfl, fun h ↦ absurd blocked h⟩
      | dir es =>
        have dir : root.look place = some .dir := by simp [Node.look, hn, Node.stub]
        by_cases more : ss = []
        · subst more
          exact absurd dir missing
        · rw [List.dropLast_cons_of_ne_nil more, List.foldl_cons] at missing ⊢
          refine ih ?_ (by simp_all) more missing
          cases s with
          | stay => exact based
          | up => simp at plain
          | into name => exact .inr (by simpa [Step.apply] using dir)

namespace FileStore

variable {store : FileStore} {p : Path} {node : Node}

/-- A path leads nowhere else than to its target. -/
theorem place_eq_ok (h : store.place p = .ok q) : q = p.target store.current ∧ p.text ≠ "" := by
  unfold place at h
  split at h
  · cases h
  · rename_i ne
    exact ⟨by rw [(follow_eq_ok.1 h).1]; exact Path.foldl_stepsOf, ne⟩

/-- A path that is not empty is followed from its start. -/
theorem place_eq (ne : p.text ≠ "") :
    store.place p = follow store.root (p.start store.current) (stepsOf p) := if_neg ne

/-- A path leads to its target when the target's parent is a directory: all that is asked of a
step is that it starts from one. -/
theorem place_of_parent (plain : p.Plain) (trim : p.Trim)
    (h : store.root.look (p.target store.current).dropLast = some .dir) :
    store.place p = .ok (p.target store.current) := by
  obtain ⟨front, name, steps, hfront, -⟩ := Path.exists_stepsOf_eq store.current plain trim
  rw [place_eq trim.text_ne, follow_eq_ok]
  refine ⟨Path.foldl_stepsOf.symm, fun part hpart ne ↦ Node.look_dir_of_above h ?_⟩
  have before := prefix_dropLast hpart ne
  have up := plain.up_notMem
  rw [steps] at before up
  rw [← hfront]
  rw [List.dropLast_concat] at before
  exact foldl_apply_mono (fun h ↦ up (List.mem_append_left _ h)) before

/-- A path leads to its target when the target is a directory. -/
theorem place_of_dir (plain : p.Plain) (ne : p.text ≠ "")
    (h : store.root.look (p.target store.current) = some .dir) :
    store.place p = .ok (p.target store.current) := by
  rw [place_eq ne, follow_eq_ok]
  refine ⟨Path.foldl_stepsOf.symm, fun part hpart _ ↦ Node.look_dir_of_above h ?_⟩
  rw [← Path.foldl_stepsOf]
  exact foldl_apply_mono plain.up_notMem hpart

/-- Why a path does not lead anywhere when the directory in which its target lies is not there. -/
theorem place_of_no_parent (plain : p.Plain) (trim : p.Trim)
    (start : store.root.look (p.start store.current) = some .dir)
    (h : store.root.look (p.target store.current).dropLast ≠ some .dir) :
    (Blocked store.root (p.target store.current).dropLast → store.place p = .error .notADirectory) ∧
    (¬ Blocked store.root (p.target store.current).dropLast →
      store.place p = .error .notFound) := by
  obtain ⟨front, name, steps, hfront, -⟩ := Path.exists_stepsOf_eq store.current plain trim
  have front_eq : (stepsOf p).dropLast = front := by rw [steps, List.dropLast_concat]
  rw [← hfront, ← front_eq] at h
  rw [place_eq trim.text_ne, ← hfront, ← front_eq]
  exact follow_of_not_dir (.of_look (by simp [start])) plain.up_notMem (by simp [steps]) h

/-! ## What a path leads to -/

theorem get?_of_node? (h : store.node? p = .ok node) :
    store.root.get? (p.target store.current) = some node ∧ p.text ≠ "" := by
  unfold node? at h
  cases hp : store.place p with
  | error e =>
    rw [hp] at h
    cases h
  | ok q =>
    obtain ⟨rfl, ne⟩ := place_eq_ok hp
    rw [hp] at h
    refine ⟨?_, ne⟩
    cases hn : store.root.get? (p.target store.current) with
    | none =>
      simp only [bind, Except.bind, hn] at h
      cases h
    | some node' =>
      simp only [bind, Except.bind, hn] at h
      rw [Except.ok.inj h]

/-- What is at the place a path leads to is what it finds. -/
theorem node?_of_place {q : Place} (hp : store.place p = .ok q)
    (h : store.root.get? q = some node) :
    store.node? p = .ok node := by
  unfold node?
  simp only [hp, bind, Except.bind, h]

/-- A path at which a directory is found has one at its target, also if it goes up. -/
theorem look_of_isDir (h : store.isDir p = true) :
    store.root.look (p.target store.current) = some .dir ∧ p.text ≠ "" := by
  unfold isDir at h
  split at h
  · rename_i node hn
    obtain ⟨there, ne⟩ := get?_of_node? hn
    refine ⟨?_, ne⟩
    cases node with
    | file => cases h
    | dir es => exact Node.look_eq_dir.2 ⟨es, there⟩
  · cases h

/-- For a plain path the test for a directory is about the target alone. -/
theorem isDir_iff (plain : p.Plain) :
    store.isDir p = true ↔ p.text ≠ "" ∧ store.root.look (p.target store.current) = some .dir := by
  constructor
  · exact fun h ↦ (look_of_isDir h).symm
  · rintro ⟨ne, dir⟩
    obtain ⟨es, there⟩ := Node.look_eq_dir.1 dir
    rw [isDir, node?_of_place (place_of_dir plain ne dir) there]
    rfl

/-- Where a path starts is a directory. -/
theorem look_start (here : store.root.look store.current = some .dir) (p : Path) :
    store.root.look (p.start store.current) = some .dir := by
  unfold Path.start
  split_ifs
  · exact Node.look_dir_of_above here List.nil_prefix
  · exact here

/-- The directory in which a path leads to something is there. -/
theorem based_of_place {q : Place} (h : store.place p = .ok q) : store.root.Based q := by
  rw [place_eq (place_eq_ok h).2, follow_eq_ok] at h
  obtain ⟨rfl, way⟩ := h
  obtain ⟨front, t, -, steps⟩ := p.exists_stepsOf_concat
  have dir := way front (steps ▸ List.prefix_append _ _) (by simp [steps])
  rw [steps, List.foldl_append]
  cases Step.ofPiece t with
  | stay => exact .of_look (by simp [Step.apply, dir])
  | up => exact .of_look (by simp [Step.apply, Node.look_dir_of_above dir (List.dropLast_prefix _)])
  | into name => exact .inr (by simpa [Step.apply] using dir)

/-- A path leads to the same place wherever all these directories are. -/
theorem place_of_dirs {store' : FileStore} {q : Place} (h : store.place p = .ok q)
    (current : store'.current = store.current)
    (dirs : ∀ q, store.root.look q = some .dir → store'.root.look q = some .dir) :
    store'.place p = .ok q := by
  obtain ⟨rfl, ne⟩ := place_eq_ok h
  rw [place_eq ne, follow_eq_ok] at h ⊢
  rw [current]
  exact ⟨h.1, fun front hf hne ↦ dirs _ (h.2 front hf hne)⟩

/-- A directory stays one for every path when no directory is lost. -/
theorem isDir_of_dirs {store' : FileStore} (h : store.isDir p = true)
    (current : store'.current = store.current)
    (dirs : ∀ q, store.root.look q = some .dir → store'.root.look q = some .dir) :
    store'.isDir p = true := by
  obtain ⟨dir, ne⟩ := look_of_isDir h
  have place : store.place p = .ok (p.target store.current) := by
    unfold isDir node? at h
    cases hp : store.place p with
    | error e => simp [hp, bind, Except.bind] at h
    | ok q => rw [(place_eq_ok hp).1]
  obtain ⟨es, there⟩ := Node.look_eq_dir.1 (dirs _ dir)
  rw [isDir, node?_of_place (place_of_dirs place current dirs) there]
  rfl

/-- A plain path leads to its target wherever something is there. -/
theorem place_of_look (plain : p.Plain) (trim : p.Trim)
    (h : store.root.look (p.target store.current) ≠ none) :
    store.place p = .ok (p.target store.current) := by
  refine place_of_parent plain trim ?_
  obtain ⟨front, name, -, -, split⟩ := Path.exists_stepsOf_eq store.current plain trim
  rw [split] at h
  exact Node.look_of_append h (by simp)

/-- For a plain path the test for a file is about the target alone. -/
theorem isFile_iff (plain : p.Plain) (trim : p.Trim) :
    store.isFile p = true ↔ ∃ content, store.root.look (p.target store.current) =
      some (.file content) := by
  constructor
  · intro h
    unfold isFile at h
    split at h
    · rename_i node hn
      cases node with
      | file content => exact ⟨content, Node.look_eq_file.2 (get?_of_node? hn).1⟩
      | dir => cases h
    · cases h
  · rintro ⟨content, file⟩
    have place := @place_of_look store p plain trim (by simp [file])
    rw [isFile, node?_of_place place (Node.look_eq_file.1 file)]
    rfl

/-- A plain path reads the file at its target. -/
theorem read_of_file (plain : p.Plain) (trim : p.Trim) {content : ByteArray}
    (h : store.root.get? (p.target store.current) = some (.file content)) :
    store.read p = .ok content := by
  have place := @place_of_look store p plain trim (by simp [Node.look, h])
  unfold read
  rw [node?_of_place place h]
  rfl

/-- What is read as text is the file at the target, decoded. -/
theorem look_of_readText {text : String} (h : store.readText p = .ok text) :
    ∃ content, store.root.look (p.target store.current) = some (.file content) ∧
      String.fromUTF8? content = some text := by
  unfold readText read at h
  cases hn : store.node? p with
  | error e =>
    rw [hn] at h
    cases h
  | ok node =>
    rw [hn] at h
    cases node with
    | dir => cases h
    | file content =>
      refine ⟨content, Node.look_eq_file.2 (get?_of_node? hn).1, ?_⟩
      simp only [bind, Except.bind] at h
      cases decoded : String.fromUTF8? content with
      | none =>
        rw [decoded] at h
        cases h
      | some text' =>
        rw [decoded] at h
        exact congrArg some (Except.ok.inj h)

end FileStore

end Files

end PlatformOverlay
