import PlatformOverlay.Proofs.Output.Placing
import PlatformOverlay.Proofs.Workspace.Run

/-!
# Writing output twice

What a run writes depends neither on what other runs have left above the output directory nor on
what an earlier run of the same kind has left in it.  `Between` relates a tree to one in which
directories above the output directory may be there already, and in which anything in the output
directory may be as it is in the end.  Operations in lockstep on such trees give the same results
and stay related (`lockstep_deliver`), so in the end the output directories are the same.

`Between current final written` has the tree at the end as a parameter, which is known only when all
is done. So `LockstepAt` speaks of all trees that are to come (`Grows`), and sequences compose from
the back (`LockstepAt.bind`). The places that have been written are the ones at which both trees
agree, and they become more from step to step.

Each operation is known by what it leaves at every place (`LockstepAt.of_yields`). Putting a file at
its target has four outcomes, and in each the second tree goes along:

| in the first tree | in the second tree |
| --- | --- |
| a file is on the way | it is there too, as files stay files to the end |
| a directory is at the target | it is there too, as directories stay as well |
| the target has been written | both agree there |
| otherwise | what the second tree may have there is replaced |
-/

namespace PlatformOverlay.Output

open Files Model Merge Workspace

/-- An output directory and the source files, which are neither in it nor on the way to it. -/
structure Site where
  output : Path
  current : Place
  source : Place → Option ByteArray
  apart : ∀ q content, source q = some content →
    ¬ output.target current <+: q ∧ ¬ q <+: output.target current

namespace Site

variable (site : Site)

/-- The place of the output directory. -/
abbrev place : Place := site.output.target site.current

/-- The tree has what a run expects. -/
structure Ready (store : FileStore) : Prop where
  current : store.current = site.current
  start : store.root.look (site.output.start site.current) = some .dir
  source : ∀ q content, site.source q = some content → store.root.look q = some (.file content)

end Site

/-- Nothing goes away, and directories stay directories. -/
def Grows (v w : View) : Prop :=
  ∀ q stub, v q = some stub → ∃ stub', w q = some stub' ∧ (stub' = .dir ↔ stub = .dir)

namespace Grows

variable {u v w : View}

protected theorem refl (v : View) : Grows v v := fun _ stub h ↦ ⟨stub, h, Iff.rfl⟩

protected theorem trans (h : Grows u v) (h' : Grows v w) : Grows u w := by
  intro q stub hq
  obtain ⟨stub', hv, same⟩ := h q stub hq
  obtain ⟨stub'', hw, same'⟩ := h' q stub' hv
  exact ⟨stub'', hw, same'.trans same⟩

theorem dir (h : Grows v w) {q : Place} (hq : v q = some .dir) : w q = some .dir := by
  obtain ⟨stub, hw, same⟩ := h q .dir hq
  rw [hw, same.2 rfl]

/-- A file stays a file, though its content may change. -/
theorem file (h : Grows v w) {q : Place} {content : ByteArray} (hq : v q = some (.file content)) :
    ∃ content', w q = some (.file content') := by
  obtain ⟨stub, hw, same⟩ := h q _ hq
  cases stub with
  | file content' => exact ⟨content', hw⟩
  | dir => simp at same

end Grows

/-- The second tree has more directories above the output directory and something of the final tree
in it.  At the places that have been written already the trees agree. -/
structure Between (site : Site) (final : View) (written : List Place) (store store' : FileStore) :
    Prop where
  ready : site.Ready store'
  above : ∀ q, q <+: site.place → q ≠ site.place → store'.root.look q = store.root.look q ∨
    (store.root.look q = none ∧ store'.root.look q = some .dir)
  inside : ∀ q, site.place <+: q →
    store'.root.look q = store.root.look q ∨ store'.root.look q = final q
  written : ∀ q ∈ written, store'.root.look q = store.root.look q

/-- From a tree, the operation keeps everything that is there, and it runs the same from any tree
that is between the given one and the final one. -/
structure LockstepAt {α : Type} (site : Site) (final : View) (before after : List Place)
    (m : Action α)
    (store : FileStore) : Prop where
  ready : site.Ready (m store).2
  grows : Grows store.root.look (m store).2.root.look
  both : ∀ store', Between site final before store store' → Grows (m store).2.root.look final →
    (m store').1 = (m store).1 ∧ Between site final [] (m store).2 (m store').2 ∧
      ∀ a, (m store).1 = .ok a → Between site final after (m store).2 (m store').2

/-- `before` and `after` are what has been written. -/
def Lockstep {α : Type} (site : Site) (final : View) (before after : List Place)
    (m : Action α) : Prop :=
  ∀ store, site.Ready store → LockstepAt site final before after m store

section combinators

variable {site : Site} {final : View} {α β : Type} {before middle after : List Place}

/-- Agreement on fewer places is asked for less. -/
theorem Between.mono {written written' : List Place} {store store' : FileStore}
    (h : Between site final written store store') (less : written' ⊆ written) :
    Between site final written' store store' :=
  { h with written := fun q hq ↦ h.written q (less hq) }

/-- A step that does not look at the store and does not change it. -/
theorem Lockstep.of_same {m : Action α} {r : Except Failure α} (h : ∀ store, m store = (r, store)) :
    Lockstep site final before before m := by
  intro store ready
  have run := h store
  refine ⟨by rw [run]; exact ready, by rw [run]; exact .refl _, fun store' between _ ↦ ?_⟩
  rw [h store', run]
  exact ⟨rfl, between.mono (List.nil_subset _), fun _ _ ↦ between⟩

theorem Lockstep.pure (a : α) : Lockstep site final before before (Pure.pure a : Action α) :=
  .of_same fun _ ↦ rfl

/-- Steps in lockstep are in lockstep one after the other: the first one's stores are again one
between the other and the final one. -/
theorem LockstepAt.bind {x : Action α} {f : α → Action β} {store : FileStore}
    (hx : LockstepAt site final before middle x store)
    (hf : ∀ a, Lockstep site final middle after (f a)) :
    LockstepAt site final before after (x >>= f) store := by
  obtain ⟨ready₁, grows₁, both₁⟩ := hx
  rcases run : x store with ⟨e | a, mid⟩ <;> rw [run] at ready₁ grows₁ both₁
  · have stop : (x >>= f) store = (.error e, mid) := by rw [run_bind, run]
    refine ⟨by rw [stop]; exact ready₁, by rw [stop]; exact grows₁, fun store' between grows ↦ ?_⟩
    rw [stop] at grows ⊢
    obtain ⟨same, between', -⟩ := both₁ store' between grows
    rcases run' : x store' with ⟨r, mid'⟩
    rw [run'] at same between'
    obtain rfl : r = .error e := same
    rw [run_bind, run']
    exact ⟨rfl, between', by simp⟩
  · have go : (x >>= f) store = f a mid := by rw [run_bind, run]
    obtain ⟨ready₂, grows₂, both₂⟩ := hf a mid ready₁
    refine ⟨by rw [go]; exact ready₂, by rw [go]; exact grows₁.trans grows₂,
      fun store' between grows ↦ ?_⟩
    rw [go] at grows ⊢
    obtain ⟨same, -, between'⟩ := both₁ store' between (grows₂.trans grows)
    rcases run' : x store' with ⟨r, mid'⟩
    rw [run'] at same between'
    obtain rfl : r = .ok a := same
    rw [run_bind, run']
    exact both₂ mid' (between' a rfl) grows

theorem Lockstep.bind {x : Action α} {f : α → Action β} (hx : Lockstep site final before middle x)
    (hf : ∀ a, Lockstep site final middle after (f a)) :
    Lockstep site final before after (x >>= f) :=
  fun store ready ↦ (hx store ready).bind hf

/-- It is enough to run another operation that does the same on both trees. -/
theorem LockstepAt.congr {m m' : Action α} {store : FileStore}
    (h : LockstepAt site final before after m' store) (same : m store = m' store)
    (same' : ∀ store', Between site final before store store' → m store' = m' store') :
    LockstepAt site final before after m store := by
  obtain ⟨ready, grows, both⟩ := h
  refine ⟨same ▸ ready, same ▸ grows, fun store' between grows ↦ ?_⟩
  rw [same, same' store' between]
  exact both store' between (same ▸ grows)

/-- The step can be replaced by one that is the same on all stores that are ready. -/
theorem Lockstep.congr {m m' : Action α} (h : Lockstep site final before after m')
    (same : ∀ store, site.Ready store → m store = m' store) : Lockstep site final before after m :=
  fun store ready ↦ (h store ready).congr (same store ready) fun store' between ↦
    same store' between.ready

theorem Lockstep.forget {m : Action α} (h : Lockstep site final before after m) {less : List Place}
    (subset : less ⊆ after) : Lockstep site final before less m := by
  intro store ready
  obtain ⟨ready, grows, both⟩ := h store ready
  refine ⟨ready, grows, fun store' between grows ↦ ?_⟩
  obtain ⟨same, between, ok⟩ := both store' between grows
  exact ⟨same, between, fun a ha ↦ (ok a ha).mono subset⟩

/-- A run over a list, each step of which writes the place of its element. -/
theorem Lockstep.mapM {f : β → Action α} {bs : List β} (places : β → Place)
    (h : ∀ b ∈ bs, ∀ before, Lockstep site final before (places b :: before) (f b)) :
    Lockstep site final before ((bs.map places).reverse ++ before) (bs.mapM f) := by
  induction bs generalizing before with
  | nil =>
    rw [List.mapM_nil]
    exact .pure []
  | cons b bs ih =>
    rw [List.mapM_cons, List.map_cons, List.reverse_cons, List.append_assoc, List.singleton_append]
    refine (h b List.mem_cons_self before).bind fun a ↦ ?_
    exact (ih fun b hb ↦ h b (List.mem_cons_of_mem _ hb)).bind fun _ ↦ .pure _

/-- A run over a list that writes no new places. -/
theorem Lockstep.foldlM {f : α → β → Action α} {bs : List β} {a : α}
    (h : ∀ a, ∀ b ∈ bs, Lockstep site final before before (f a b)) :
    Lockstep site final before before (bs.foldlM f a) := by
  induction bs generalizing a with
  | nil => exact .pure a
  | cons b bs ih =>
    rw [List.foldlM_cons]
    exact (h a b List.mem_cons_self).bind fun a ↦ ih fun a b hb ↦ h a b (List.mem_cons_of_mem _ hb)

end combinators

/-! ## Steps -/

section steps

variable {site : Site} {final : View} {written written' : List Place} {target : Path}
    {names : Place}
  {content : ByteArray} {store store' next next' : FileStore}

/-- A step keeps the second store between the first and the final one if it does the same at
every place or leaves both as they were. -/
theorem Between.step (h : Between site final written store store') (ready : site.Ready next')
    (each : ∀ q, next'.root.look q = next.root.look q ∨
      (next.root.look q = store.root.look q ∧ next'.root.look q = store'.root.look q))
    (new : ∀ q ∈ written', q ∈ written ∨ next'.root.look q = next.root.look q) :
    Between site final written' next next' where
  ready := ready
  above q hq ne := by
    rcases each q with same | ⟨e, e'⟩
    · exact .inl same
    · rw [e, e']
      exact h.above q hq ne
  inside q hq := by
    rcases each q with same | ⟨e, e'⟩
    · exact .inl same
    · rw [e, e']
      exact h.inside q hq
  written q hq := by
    rcases each q with same | ⟨e, e'⟩
    · exact same
    · rcases new q hq with old | same
      · rw [e, e', h.written q old]
      · exact same

/-- It is enough to know what is everywhere behind the operation. -/
theorem LockstepAt.of_yields {α : Type} {m : Action α} {r : Except Failure α} {v : View}
    (yields : Yields m store r v) (ready : site.Ready (m store).2) (grows : Grows store.root.look v)
    (both : ∀ store', Between site final written store store' → Grows v final →
      ∃ v', Yields m store' r v' ∧ site.Ready (m store').2 ∧
        (∀ q, v' q = v q ∨ (v q = store.root.look q ∧ v' q = store'.root.look q)) ∧
        ∀ a, r = .ok a → ∀ q ∈ written', q ∈ written ∨ v' q = v q) :
    LockstepAt site final written written' m store := by
  refine ⟨ready, yields.look ▸ grows, fun store' between grows ↦ ?_⟩
  rw [yields.look] at grows
  obtain ⟨v', yields', ready', each, new⟩ := both store' between grows
  rw [← yields.look, ← yields'.look] at each new
  refine ⟨by rw [yields.result, yields'.result], between.step ready' each (by simp), fun a ha ↦ ?_⟩
  exact between.step ready' each (new a (yields.result.symm.trans ha))

/-- A store is ready as long as nothing changes beside the output directory and its start is
there. -/
theorem Site.Ready.of_look (h : site.Ready store) (current : next.current = store.current)
    (start : next.root.look (site.output.start site.current) = some .dir)
    (beside : ∀ q, ¬ site.place <+: q → ¬ q <+: site.place → next.root.look q = store.root.look q) :
    site.Ready next where
  current := current.trans h.current
  start := start
  source q content hq := by
    obtain ⟨below, above⟩ := site.apart q content hq
    rw [beside q below above, h.source q content hq]

/-- An operation that fails at once fails in the same way. -/
theorem LockstepAt.of_error {α : Type} {m : Action α} {e : Failure} (ready : site.Ready store)
    (run : m store = (.error e, store)) (both : ∀ store', Between site final written store store' →
      Grows store.root.look final → m store' = (.error e, store')) :
    LockstepAt site final written written' m store := by
  refine .of_yields (.of_eq run) (by rw [run]; exact ready) (.refl _) fun store' between grows ↦ ?_
  have run' := both store' between grows
  exact ⟨_, .of_eq run', by rw [run']; exact between.ready, fun q ↦ .inr ⟨rfl, rfl⟩, by simp⟩

theorem Site.Ready.of_same (h : site.Ready store) {α : Type} {m : Action α} {r : Except Failure α}
    (yields : Yields m store r store.root.look) : site.Ready (m store).2 :=
  h.of_look yields.current (by rw [yields.look, h.start]) fun q _ _ ↦ by rw [yields.look]

variable (ht : IsTarget site.output site.current target names)

/-! ### Putting a file at its target -/

@[simp] theorem filed_self {v : View} {place : Place} :
    v.filed place content place = some (.file content) := by
  rw [View.filed, View.withFile, if_pos rfl]

/-- A plain output path starts above the output directory. -/
theorem start_above (plain : site.output.Plain) :
    site.output.start site.current <+: site.place := by
  rw [Site.place, Path.target_of_plain plain]
  exact List.prefix_append _ _

include ht

/-- The directory of a target lies in the output directory. -/
theorem IsTarget.place_prefix_dropLast : site.place <+: (target.target site.current).dropLast := by
  rw [ht.place, List.dropLast_append_of_ne_nil ht.below]
  exact List.prefix_append _ _

theorem IsTarget.not_prefix_place : ¬ target.target site.current <+: site.place := by
  intro h
  have le := h.length_le
  have pos := List.length_pos_iff.2 ht.below
  rw [ht.place, Site.place, List.length_append] at le
  omega

/-- Beside the output directory nothing changes when a target is filed. -/
theorem filed_of_beside {v : View} {q : Place} (below : ¬ site.place <+: q)
    (above : ¬ q <+: site.place) :
    v.filed (target.target site.current) content q = v q := by
  have inside : site.place <+: target.target site.current := ht.place ▸ List.prefix_append _ _
  rw [View.filed, View.withFile,
    if_neg (fun e : q = target.target site.current ↦ below (e ▸ inside)), View.withDirs, if_neg]
  intro hq
  rcases List.prefix_or_prefix_of_prefix (hq.trans (List.dropLast_prefix _)) inside with h | h
  · exact above h
  · exact below h

/-- On the way to a filed target there are directories. -/
theorem filed_on_way {v : View} {q : Place} (hq : q <+: (target.target site.current).dropLast) :
    v.filed (target.target site.current) content q = some .dir := by
  have ne : q ≠ target.target site.current := by
    rintro rfl
    exact not_prefix_dropLast ht.ne_nil hq
  rw [View.filed, View.withFile, if_neg ne, View.withDirs, if_pos hq]

/-- Above the output directory there are directories when a target is filed. -/
theorem filed_of_above {v : View} {q : Place} (above : q <+: site.place) :
    v.filed (target.target site.current) content q = some .dir :=
  filed_on_way ht (above.trans ht.place_prefix_dropLast)

/-- Replacing a file of the output keeps the store ready. -/
theorem ready_withFile (plain : site.output.Plain) (h : site.Ready store)
    {m : Action α} {r : Except Failure α}
    (yields : Yields m store r
      (View.withFile store.root.look (target.target site.current) content)) :
    site.Ready (m store).2 := by
  have inside : site.place <+: target.target site.current := ht.place ▸ List.prefix_append _ _
  refine h.of_look yields.current ?_ fun q below above ↦ ?_
  · rw [yields.look, View.withFile, if_neg, h.start]
    exact fun e ↦ ht.not_prefix_place (e ▸ start_above plain)
  · rw [yields.look, View.withFile, if_neg fun e : q = target.target site.current ↦
      below (e ▸ inside)]

theorem ready_filed (plain : site.output.Plain) (h : site.Ready store)
    {m : Action α} {r : Except Failure α}
    (yields : Yields m store r (View.filed store.root.look (target.target site.current) content)) :
    site.Ready (m store).2 := by
  refine h.of_look yields.current ?_ fun q below above ↦ ?_
  · rw [yields.look, filed_of_above ht (start_above plain)]
  · rw [yields.look, filed_of_beside ht below above]

omit ht in
/-- Filing a target where neither a file blocks the way nor a directory is loses nothing. -/
theorem grows_filed {v : View} (clear : ∀ q, q <+: (target.target site.current).dropLast →
      ∀ content, v q ≠ some (.file content))
        (not_dir : v (target.target site.current) ≠ some .dir) :
    Grows v (v.filed (target.target site.current) content) := by
  intro q stub hq
  unfold View.filed View.withFile View.withDirs
  split_ifs with here above
  · subst here
    cases stub with
    | file content' => exact ⟨_, rfl, by simp⟩
    | dir => exact absurd hq not_dir
  · cases stub with
    | file content' => exact absurd hq (clear q above content')
    | dir => exact ⟨_, rfl, Iff.rfl⟩
  · exact ⟨stub, hq, Iff.rfl⟩

end steps

/-! ### What is in the way -/

section blocked

variable {site : Site} {final : View} {written : List Place} {store store' : FileStore}
    {place : Place}
  (h : Between site final written store store') (inside : site.place <+: place)

include h inside

/-- A file that blocks a place in the first tree blocks it in the second. -/
theorem Between.exists_blocking (grows : Grows store.root.look final)
    (blocked : Blocked store.root place) :
    ∃ q, q <+: place ∧ (∃ content, store.root.look q = some (.file content)) ∧
      ∃ content, store'.root.look q = some (.file content) := by
  obtain ⟨q, content, hq, file⟩ := blocked
  refine ⟨q, hq, ⟨content, file⟩, ?_⟩
  by_cases below : site.place <+: q
  · rcases h.inside q below with same | last
    · exact ⟨content, same.trans file⟩
    · rw [last]
      exact grows.file file
  · have above := (List.prefix_or_prefix_of_prefix hq inside).resolve_right below
    rcases h.above q above (by rintro rfl; exact below List.prefix_rfl) with same | ⟨none, -⟩
    · exact ⟨content, same.trans file⟩
    · simp [file] at none

/-- A file that blocks a way in the first store is still there in the second one. -/
theorem Between.blocked (grows : Grows store.root.look final) (blocked : Blocked store.root place) :
    Blocked store'.root place := by
  obtain ⟨q, hq, -, content, file⟩ := h.exists_blocking inside grows blocked
  exact ⟨q, content, hq, file⟩

/-- The way fails with the same cause in both stores, since files stay files and directories
stay directories. -/
theorem Between.blockCause_eq (grows : Grows store.root.look final)
    (blocked : Blocked store.root place) :
    blockCause store'.root.look place = blockCause store.root.look place := by
  obtain ⟨q, hq, ⟨content, file⟩, content', file'⟩ := h.exists_blocking inside grows blocked
  unfold blockCause
  by_cases here : q = place
  · rw [← here, file, file']
  · -- Nothing can be below a file.
    have nothing {root : Node} {c : ByteArray} (hc : root.look q = some (.file c)) :
        root.look place = none := by
      obtain ⟨r, rfl⟩ := hq
      exact Node.look_below_eq_none (by simp [hc]) r (by simpa using here)
    rw [nothing file, nothing file']

/-- Where directories are made on the way to a place, no file blocks the place in the second tree
either. -/
theorem Between.not_blocked (dirs : ∀ q, q <+: place → site.place <+: q → final q = some .dir)
    (clear : ¬ Blocked store.root place) : ¬ Blocked store'.root place := by
  rintro ⟨q, content, hq, file⟩
  have not_file : store.root.look q ≠ some (.file content) :=
    fun file ↦ clear ⟨q, content, hq, file⟩
  by_cases below : site.place <+: q
  · rcases h.inside q below with same | last
    · exact not_file (same ▸ file)
    · rw [last, dirs q hq below] at file
      simp at file
  · have above := (List.prefix_or_prefix_of_prefix hq inside).resolve_right below
    rcases h.above q above (by rintro rfl; exact below List.prefix_rfl) with same | ⟨-, dir⟩
    · exact not_file (same ▸ file)
    · simp [dir] at file

end blocked

/-! ### Operations on a file -/

section operations

variable {site : Site} {final : View} {written : List Place} {target : Path} {names : Place}
  {content : ByteArray} {operation : String} {reported : Path}
  (ht : IsTarget site.output site.current target names) (plain : site.output.Plain)

include ht plain

/-- Putting a file at a target, with each of its four outcomes: a file on the way, a directory
at the target, a target that has been written, a new one. -/
theorem lockstep_putFile : Lockstep site final written (target.target site.current :: written)
    (putFile operation reported target content) := by
  intro store ready
  have way := ht.place_prefix_dropLast
  have inside : site.place <+: target.target site.current := way.trans (List.dropLast_prefix _)
  -- The outcome in the first tree decides; in each case the second tree is shown to go the same
  -- way.
  by_cases blocked : Blocked store.root (target.target site.current).dropLast
  · obtain ⟨parent, hp, run⟩ :=
      @putFile_of_blocked _ _ _ _ _ content operation reported ready.current
      ht ready.start blocked
    refine .of_error ready run fun store' between grows ↦ ?_
    obtain ⟨parent', hp', run'⟩ := @putFile_of_blocked _ _ _ _ _ content operation reported
      between.ready.current ht between.ready.start (between.blocked way grows blocked)
    obtain rfl : parent' = parent := Option.some.inj (hp'.symm.trans hp)
    rw [run', between.blockCause_eq way grows blocked]
  by_cases dir : store.root.look (target.target site.current) = some .dir
  · have yields := @yields_putFile_of_dir _ _ _ _ _ content operation reported ready.current ht
      ready.start dir
    refine .of_yields yields (ready.of_same yields) (.refl _) fun store' between grows ↦ ?_
    have dir' : store'.root.look (target.target site.current) = some .dir := by
      rcases between.inside _ inside with e | e
      · rw [e, dir]
      · rw [e, grows.dir dir]
    have yields' :=
      @yields_putFile_of_dir _ _ _ _ _ content operation reported between.ready.current
      ht between.ready.start dir'
    exact ⟨_, yields', between.ready.of_same yields', fun q ↦ .inr ⟨rfl, rfl⟩, by simp⟩
  · have yields := @yields_putFile _ _ _ _ _ content operation reported ready.current ht ready.start
      blocked dir
    have growing :
        Grows store.root.look (View.filed store.root.look (target.target site.current) content) :=
      grows_filed (fun q hq content file ↦ blocked ⟨q, content, hq, file⟩) dir
    refine .of_yields yields (ready_filed ht plain ready yields) growing
      fun store' between grows ↦ ?_
    have blocked' : ¬ Blocked store'.root (target.target site.current).dropLast := by
      refine between.not_blocked way (fun q hq _ ↦ grows.dir ?_) blocked
      rw [filed_on_way ht hq]
    have dir' : store'.root.look (target.target site.current) ≠ some .dir := by
      rcases between.inside _ inside with e | e
      · rwa [e]
      · obtain ⟨content', file⟩ := grows.file filed_self
        simp [e, file]
    have yields' := @yields_putFile _ _ _ _ _ content operation reported between.ready.current ht
      between.ready.start blocked' dir'
    refine ⟨_, yields', ready_filed ht plain between.ready yields', fun q ↦ ?_, fun _ _ q hq ↦ ?_⟩
    · unfold View.filed View.withFile View.withDirs
      split_ifs
      · exact .inl rfl
      · exact .inl rfl
      · exact .inr ⟨rfl, rfl⟩
    · rcases List.mem_cons.1 hq with rfl | hq
      · exact .inr (by rw [filed_self, filed_self])
      · exact .inl hq

/-- A repair reads what it has written before, so the place must be one at which the stores
agree. -/
theorem lockstep_repairFile {common : String} {package : Option String} {store : FileStore}
    (ready : site.Ready store) (file : store.root.look (target.target site.current) =
      some (.file content))
    (again : target.target site.current ∈ written) :
    LockstepAt site final written written (repairFile target common package) store := by
  have run := @repairFile_eq _ _ _ _ _ content common package ready.current ht file
  have run' (store' : FileStore) (between : Between site final written store store') :=
    @repairFile_eq _ _ _ _ _ content common package between.ready.current ht
      (by rw [between.written _ again, file])
  cases replaced : replacement target content common package with
  | error e =>
    rw [replaced] at run
    exact .of_error ready run fun store' between _ ↦ by rw [run' store' between, replaced]
  | ok new =>
    have yields :=
      @yields_replace _ _ _ _ _ new.toUTF8 "Fixing imports" target _ ready.current ht file
    have put : LockstepAt site final written written
        (tagged "Fixing imports" target (writeFile target new.toUTF8)) store := by
      refine .of_yields yields (ready_withFile ht plain ready yields) ?_ fun store' between _ ↦ ?_
      · intro q stub hq
        unfold View.withFile
        split_ifs with here
        · rw [here, file] at hq
          cases hq
          exact ⟨_, rfl, by simp⟩
        · exact ⟨stub, hq, Iff.rfl⟩
      · have yields' := @yields_replace _ _ _ _ _ new.toUTF8 "Fixing imports" target _
          between.ready.current ht (by rw [between.written _ again, file])
        refine ⟨_, yields', ready_withFile ht plain between.ready yields', fun q ↦ ?_,
          fun _ _ q hq ↦ .inl hq⟩
        unfold View.withFile
        split_ifs
        · exact .inl rfl
        · exact .inr ⟨rfl, rfl⟩
    exact put.congr (by rw [run, replaced]) fun store' between ↦ by
      rw [run' store' between, replaced]

end operations

/-! ## The whole output -/

/-- A source file with its target. -/
structure Site.Assigned (site : Site) (roots : SourceRoots) (file : SourceFile)
    (p : Path) : Prop where
  relative : roots.relative? file.path = some p
  target : IsTarget site.output site.current (site.output.join p) (Path.names p.components)
  plain : file.path.Plain
  trim : file.path.Trim
  source : ∃ content, site.source (file.path.target site.current) = some content

section files

variable {site : Site} {final : View} {written : List Place} {roots : SourceRoots}
    {file : SourceFile}
  {p : Path} {common : CommonClasses} {emit : EmitSet} {summary : Summary}
  (assigned : site.Assigned roots file p) (plain : site.output.Plain)

include assigned plain

theorem lockstep_writeOne :
    Lockstep site final written ((site.output.join p).target site.current :: written)
    (writeOne roots site.output file) := by
  rw [writeOne_eq assigned.relative]
  exact (lockstep_putFile assigned.target plain).bind fun _ ↦ .pure _

/-- Copying a source is in lockstep, since both stores have the same sources. -/
theorem lockstep_copy :
    Lockstep site final written ((site.output.join p).target site.current :: written)
    (copy file.path (site.output.join p)) := by
  obtain ⟨content, source⟩ := assigned.source
  have put := @lockstep_putFile site final written _ _ content "Copying file" file.path
    assigned.target plain
  refine put.congr fun store ready ↦ ?_
  exact copy_eq ready.current assigned.target ready.start assigned.plain assigned.trim
    (ready.source _ _ source) (site.apart _ _ source).1

/-- Finishing a file is in lockstep: a touched file has been written in both stores. -/
theorem lockstep_finishOne
    (again : emit.touches file = true → (site.output.join p).target site.current ∈ written) :
    Lockstep site final written written (finishOne roots common emit site.output summary file) := by
  intro store ready
  have ht := assigned.target
  have isFile_iff (store : FileStore) (ready : site.Ready store) :
      store.isFile (site.output.join p) = true ↔
        ∃ content, store.root.look ((site.output.join p).target site.current) =
          some (.file content) := by
    rw [FileStore.isFile_iff ht.plain ht.trim, ready.current]
  -- Whether the file has been printed is the same in both trees: a touched file has been written
  -- before, and there they agree.
  have same (store' : FileStore) (between : Between site final written store store') :
      (emit.touches file && store'.isFile (site.output.join p)) =
        (emit.touches file && store.isFile (site.output.join p)) := by
    cases touched : emit.touches file with
    | false => rfl
    | true =>
      rw [Bool.true_and, Bool.true_and, Bool.eq_iff_iff, isFile_iff store' between.ready,
        isFile_iff store ready, between.written _ (again touched)]
  have copied : Lockstep site final written written (do
      copy file.path (site.output.join p)
      return { summary with copied := summary.copied + 1 }) :=
    ((lockstep_copy assigned plain).forget (List.subset_cons_self _ _)).bind fun _ ↦ .pure _
  cases counterpart : counterpartText? common file with
  | none =>
    refine (copied store ready).congr ?_ fun store' between ↦ ?_
    · exact finishOne_of_not_printed assigned.relative (.inl counterpart)
    · exact finishOne_of_not_printed assigned.relative (.inl counterpart)
  | some text =>
    cases printed : emit.touches file && store.isFile (site.output.join p) with
    | false =>
      refine (copied store ready).congr ?_ fun store' between ↦ ?_
      · exact finishOne_of_not_printed assigned.relative (.inr printed)
      · exact finishOne_of_not_printed assigned.relative
          (.inr ((same store' between).trans printed))
    | true =>
      obtain ⟨touched, isFile⟩ := Bool.and_eq_true_iff.1 printed
      obtain ⟨content, there⟩ := (isFile_iff store ready).1 isFile
      have repaired : LockstepAt site final written written (do
          repairFile (site.output.join p) text file.package
          return { summary with repaired := summary.repaired + 1 }) store :=
        (lockstep_repairFile ht plain ready there (again touched)).bind fun _ ↦ .pure _
      refine repaired.congr ?_ fun store' between ↦ ?_
      · exact finishOne_of_printed assigned.relative counterpart printed
      · exact finishOne_of_printed assigned.relative counterpart
          ((same store' between).trans printed)

end files

/-- All output of a run is written in lockstep. -/
theorem lockstep_deliver {site : Site} {final : View} {roots : SourceRoots} {common : CommonClasses}
    {emit : EmitSet} {model : SourceModel} (plain : site.output.Plain)
    (assigned : ∀ file ∈ model.files, ∃ p, site.Assigned roots file p) :
    Lockstep site final [] [] (deliver roots model common emit site.output) := by
  choose! p assigned using assigned
  have write : Lockstep site final []
      (((model.files.filter emit.touches).map fun file ↦
        (site.output.join (p file)).target site.current).reverse ++ [])
      (writeEmitted roots model emit site.output) :=
    .mapM _ fun file hf before ↦ lockstep_writeOne (assigned file (List.mem_filter.1 hf).1) plain
  refine write.bind fun written ↦ Lockstep.bind (Lockstep.foldlM fun summary file hf ↦ ?_) fun _ ↦
    (Lockstep.pure written.length).forget (List.nil_subset _)
  refine lockstep_finishOne (assigned file hf) plain fun touched ↦ ?_
  rw [List.append_nil, List.mem_reverse]
  exact List.mem_map_of_mem (List.mem_filter.2 ⟨hf, touched⟩)

end PlatformOverlay.Output
