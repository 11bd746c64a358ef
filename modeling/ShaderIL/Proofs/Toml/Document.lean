import ShaderIL.Proofs.Toml.Syntax
import ShaderIL.Toml.Document

/-!
# The keys of a document

What a table at the root of a document holds was named by a key: either the key of two names itself
stands among the keys of the document, or a longer key does. The longer one cannot be left out, for the
fields of a table on one line are kept under the last names of their keys. A decoder of which this holds
`NamesValues`; the one at hand does (`Document.namesValues_parse?`).

Construction goes from state to state, and one relation says what all its steps have in common
(`Builder.Grows`): no key is forgotten, and what the tables at the root hold anew is named by a key or
lies along the path that is being opened. Once that path has been noted as a key, nothing is left over.
-/

namespace ShaderIL.Toml

/-! ### Tables -/

namespace Table

variable {t root root' : Table} {name group k : String} {v : Value} {path : Path}

theorem find?_set (name : String) (v : Value) (t : Table) (k : String) :
    (set name v t).find? k = if k = name then some v else t.find? k := by
  induction t with
  | nil => by_cases hk : k = name <;> simp [set, find?, hk]
  | cons entry rest ih =>
    obtain ⟨other, w⟩ := entry
    unfold find? at ih ⊢
    rw [set]
    by_cases ho : other = name
    · by_cases hk : k = name
      · simp [ho, hk]
      · have hbeq : (k == name) = false := by simpa using hk
        simp [ho, hk, List.lookup_cons, hbeq]
    · by_cases hk : k = other
      · simp [ho, hk]
      · have hbeq : (k == other) = false := by simpa using hk
        simp [ho, List.lookup_cons, hbeq, ih]

theorem mem_of_find? (h : t.find? k = some v) : (k, v) ∈ t := by
  obtain ⟨l₁, l₂, rfl, -⟩ := List.lookup_eq_some_iff.mp h
  simp

/-- A table at the root has a value under the name. -/
def Held (root : Table) (group name : String) : Prop :=
  ∃ t, root.find? group = some (.table t) ∧ (Table.find? t name).isSome = true

/-- A change at a path brings the table no new name, unless it is a change of that table. -/
theorem isSome_find?_of_update (h : update (set name v) path root = some root')
    (hk : (root'.find? k).isSome = true) :
    (root.find? k).isSome = true ∨ path = [] ∧ k = name := by
  cases path with
  | nil =>
    cases h
    rw [find?_set] at hk
    by_cases hkn : k = name
    · exact .inr ⟨rfl, hkn⟩
    · rw [if_neg hkn] at hk
      exact .inl hk
  | cons a rest =>
    left
    have hset : ∃ w, root' = root.set a w ∧ (root.find? a).isSome = true := by
      rw [update] at h
      split at h
      · next u hu =>
        obtain ⟨u', -, rfl⟩ := Option.map_eq_some_iff.mp h
        exact ⟨_, rfl, by simp [hu]⟩
      · next us hus =>
        obtain ⟨u', -, h⟩ := Option.bind_eq_some_iff.mp h
        obtain ⟨u, -, h⟩ := Option.bind_eq_some_iff.mp h
        cases h
        exact ⟨_, rfl, by simp [hus]⟩
      · cases h
    obtain ⟨w, rfl, ha⟩ := hset
    rw [find?_set] at hk
    split_ifs at hk with hka
    · exact hka ▸ ha
    · exact hk

theorem Held.of_set {w : Value} (h : (root.set name w).Held group k) :
    root.Held group k ∨ group = name ∧ ∃ t, w = .table t ∧ (Table.find? t k).isSome = true := by
  obtain ⟨t, ht, hk⟩ := h
  rw [find?_set] at ht
  split_ifs at ht with hg
  · cases ht
    exact .inr ⟨hg, t, rfl, hk⟩
  · exact .inl ⟨t, ht, hk⟩

/-- What the tables at the root hold after a change: the changed name, or the names of a value that
becomes such a table. -/
theorem Held.of_update (h : update (set name v) path root = some root')
    (hk : root'.Held group k) : root.Held group k ∨ path ++ [name] = [group, k] ∨
      path = [] ∧ group = name ∧ ∃ t, v = .table t ∧ (Table.find? t k).isSome = true := by
  cases path with
  | nil =>
    cases h
    rcases hk.of_set with hk | hk
    · exact .inl hk
    · exact .inr (.inr ⟨rfl, hk⟩)
  | cons a rest =>
    rw [update] at h
    split at h
    · next u hu =>
      obtain ⟨u', hu', rfl⟩ := Option.map_eq_some_iff.mp h
      rcases hk.of_set with hk | ⟨rfl, t, ht, hk⟩
      · exact .inl hk
      · cases ht
        rcases isSome_find?_of_update hu' hk with hk | ⟨rfl, rfl⟩
        · exact .inl ⟨u, hu, hk⟩
        · exact .inr (.inl rfl)
    · obtain ⟨us, -, h⟩ := Option.bind_eq_some_iff.mp h
      obtain ⟨u, -, h⟩ := Option.bind_eq_some_iff.mp h
      cases h
      rcases hk.of_set with hk | ⟨-, t, ht, -⟩
      · exact .inl hk
      · cases ht
    · cases h

end Table

/-! ### Growth -/

/-- The path is a key, or there is a key of more than two names. -/
def Noted (keys : List Path) (path : Path) : Prop := path ∈ keys ∨ ∃ q ∈ keys, 3 ≤ q.length

theorem Noted.mono {keys keys' : List Path} {path : Path} (h : Noted keys path)
    (hkeys : keys ⊆ keys') : Noted keys' path :=
  h.imp (fun h => hkeys h) fun ⟨q, hq, hlen⟩ => ⟨q, hkeys hq, hlen⟩

/-- A key names all that its beginnings of two names are. -/
theorem Noted.of_begins {keys : List Path} {path : Path} {g k : String} (hpath : path ∈ keys)
    (h : [g, k] <+: path) : Noted keys [g, k] := by
  by_cases hlen : 3 ≤ path.length
  · exact .inr ⟨path, hpath, hlen⟩
  · have heq : [g, k] = path := h.eq_of_length_le (by simp; omega)
    exact .inl (heq ▸ hpath)

namespace Builder

/-- What one state of construction keeps of an earlier one while a path is opened. -/
structure Grows (path : Path) (b b' : Builder) : Prop where
  keys : b.keys ⊆ b'.keys
  held : ∀ g k, b'.root.Held g k → b.root.Held g k ∨ Noted b'.keys [g, k] ∨ [g, k] <+: path

namespace Grows

variable {path path' : Path} {b b₁ b' : Builder}

theorem of_root (hkeys : b.keys ⊆ b'.keys) (hroot : b'.root = b.root) : Grows path b b' :=
  ⟨hkeys, fun _ _ h => .inl (hroot ▸ h)⟩

theorem refl (path : Path) (b : Builder) : Grows path b b := of_root (List.Subset.refl _) rfl

theorem trans (h : Grows path b b₁) (h' : Grows path b₁ b') : Grows path b b' := by
  refine ⟨List.Subset.trans h.keys h'.keys, fun g k hk => ?_⟩
  rcases h'.held g k hk with hk | hk
  · exact (h.held g k hk).imp_right fun hk => hk.imp_left fun hk => hk.mono h'.keys
  · exact .inr hk

theorem mono (h : Grows path b b') (hpath : path <+: path') : Grows path' b b' :=
  ⟨h.keys, fun g k hk => (h.held g k hk).imp_right fun hk => hk.imp_right fun hk => hk.trans hpath⟩

theorem settle (h : Grows path b b') (hpath : path ∈ b'.keys) (path' : Path) : Grows path' b b' :=
  ⟨h.keys, fun g k hk => (h.held g k hk).imp_right fun hk =>
    .inl (hk.elim id fun hk => .of_begins hpath hk)⟩

theorem of_single {name : String} (h : Grows [name] b b') (path : Path) : Grows path b b' := by
  refine ⟨h.keys, fun g k hk => (h.held g k hk).imp_right fun hk => hk.imp_right fun hk => ?_⟩
  have hlen := hk.length_le
  simp at hlen

end Grows

variable {α β : Type} {b b' : Builder} {path context : Path} {name : String} {v : Value}

/-! ### Opening tables -/

theorem run_bind_eq_some {m : Construct α} {k : α → Construct β} {r : β × Builder} :
    (m >>= k).run b = some r ↔ ∃ a b₁, m.run b = some (a, b₁) ∧ (k a).run b₁ = some r := by
  simp [Option.bind_eq_some_iff]

theorem run_lift_eq_some {o : Option α} {a : α} :
    (liftM o : Construct α).run b = some (a, b') ↔ o = some a ∧ b' = b := by
  cases o with
  | none => simp
  | some x => simp [eq_comm]

theorem tableAt_run {t : Table} (h : (tableAt path).run b = some (t, b')) : b' = b := by
  obtain ⟨_, _, hget, hlift⟩ := run_bind_eq_some.mp h
  cases hget
  exact (run_lift_eq_some.mp hlift).2

theorem change_run {f : Table → Table} {u : Unit} (h : (change path f).run b = some (u, b')) :
    ∃ root, Table.update f path b.root = some root ∧ b' = { b with root } := by
  obtain ⟨_, _, hget, hchange⟩ := run_bind_eq_some.mp h
  cases hget
  obtain ⟨root, b₁, hlift, hset⟩ := run_bind_eq_some.mp hchange
  obtain ⟨hroot, hb₁⟩ := run_lift_eq_some.mp hlift
  subst b₁
  cases hset
  exact ⟨root, hroot, rfl⟩

/-- The names of a value that is a table are noted below a path. -/
def NotedBelow (keys : List Path) (path : Path) (v : Value) : Prop :=
  ∀ t, v = .table t → ∀ k, (Table.find? t k).isSome = true → Noted keys (path ++ [k])

theorem notedBelow_empty (keys : List Path) (path : Path) : NotedBelow keys path (.table []) := by
  intro t ht k hk
  cases ht
  simp [Table.find?] at hk

theorem grows_change {u : Unit} (h : (change context (Table.set name v)).run b = some (u, b'))
    (hv : NotedBelow b.keys (context ++ [name]) v) : Grows (context ++ [name]) b b' := by
  obtain ⟨root, hroot, rfl⟩ := change_run h
  refine ⟨List.Subset.refl _, fun g k hk => ?_⟩
  rcases hk.of_update hroot with hk | hk | ⟨rfl, rfl, t, ht, hk⟩
  · exact .inl hk
  · exact .inr (.inr (hk ▸ List.prefix_refl _))
  · exact .inr (.inl (hv t ht k hk))

/-- A definition changes the table, or only what is known of its path. -/
theorem define_run {u : Unit} (h : (define context name v).run b = some (u, b')) :
    ∃ b₁, b₁.root = b.root ∧ b₁.keys = b.keys ∧
      (b' = b₁ ∨ (change context (Table.set name v)).run b₁ = some (u, b')) := by
  obtain ⟨t, b₁, htable, hnew⟩ := run_bind_eq_some.mp h
  have hb₁ := tableAt_run htable
  subst b₁
  dsimp only at hnew
  split_ifs at hnew
  · exact ⟨_, rfl, rfl, .inr hnew⟩
  obtain ⟨_, _, hget, harray⟩ := run_bind_eq_some.mp hnew
  cases hget
  split_ifs at harray
  · obtain ⟨_, b₁, hremove, hchange⟩ := run_bind_eq_some.mp harray
    cases hremove
    exact ⟨_, by rfl, by rfl, .inr hchange⟩
  obtain ⟨_, _, hget, himplicit⟩ := run_bind_eq_some.mp harray
  cases hget
  split_ifs at himplicit
  · cases himplicit
    exact ⟨_, by rfl, by rfl, .inl rfl⟩
  · cases himplicit

theorem grows_define {u : Unit} (h : (define context name v).run b = some (u, b'))
    (hv : NotedBelow b.keys (context ++ [name]) v) : Grows (context ++ [name]) b b' := by
  obtain ⟨b₁, hroot, hkeys, hb'⟩ := define_run h
  have hfirst : Grows (context ++ [name]) b b₁ := .of_root (hkeys ▸ List.Subset.refl _) hroot
  rcases hb' with rfl | hchange
  · exact hfirst
  · exact hfirst.trans (grows_change hchange (hkeys ▸ hv))

theorem grows_addImplicit {u : Unit} (h : (addImplicit context).run b = some (u, b')) (path : Path) :
    Grows path b b' := by
  cases h
  exact .of_root (List.Subset.refl _) rfl

theorem grows_noteKind {isArray : Bool} {u : Unit}
    (h : (noteKind context name isArray).run b = some (u, b')) (path : Path) : Grows path b b' := by
  cases h
  exact .of_root (List.Subset.refl _) rfl

theorem grows_noteKey {u : Unit} (h : (noteKey context).run b = some (u, b')) (path : Path) :
    Grows path b b' ∧ context ∈ b'.keys := by
  cases h
  exact ⟨.of_root (List.subset_append_left _ _) rfl, by simp⟩

theorem grows_openTables {done rest : Path} {u : Unit}
    (h : (openTables done rest).run b = some (u, b')) : Grows (done ++ rest) b b' := by
  induction rest generalizing done b with
  | nil =>
    cases h
    exact .refl _ _
  | cons name rest ih =>
    have hbegins : done ++ [name] <+: done ++ name :: rest := by simp
    have hrest : ∀ {b₁ : Builder}, (openTables (done ++ [name]) rest).run b₁ = some (u, b') →
        Grows (done ++ name :: rest) b₁ b' := by
      intro b₁ hopen
      have hgrows := ih hopen
      rwa [List.append_assoc, List.singleton_append] at hgrows
    obtain ⟨t, b₁, htable, hcases⟩ := run_bind_eq_some.mp h
    have hb₁ := tableAt_run htable
    subst b₁
    dsimp only at hcases
    split at hcases
    · obtain ⟨_, b₁, himplicit, hnext⟩ := run_bind_eq_some.mp hcases
      obtain ⟨_, b₂, hchange, hopen⟩ := run_bind_eq_some.mp hnext
      have hnew := (grows_change hchange (notedBelow_empty _ _)).mono hbegins
      exact (grows_addImplicit himplicit _).trans (hnew.trans (hrest hopen))
    · exact hrest hcases
    · exact hrest hcases
    · cases hcases

/-- The path of a name in the table before it; no name at all is the empty one at the root. -/
theorem dropLast_append_getLastD (path : Path) :
    path.dropLast ++ [path.getLastD ""] = path ∨ path.dropLast ++ [path.getLastD ""] = [""] := by
  cases path using List.reverseRecOn with
  | nil => exact .inr rfl
  | append_singleton path name => exact .inl (by simp)

theorem Grows.of_last (h : Grows (path.dropLast ++ [path.getLastD ""]) b b') : Grows path b b' := by
  rcases dropLast_append_getLastD path with hpath | hpath
  · rwa [hpath] at h
  · rw [hpath] at h
    exact h.of_single path

theorem grows_openTable {u : Unit} (h : (openTable path).run b = some (u, b')) : Grows path b b' := by
  obtain ⟨_, b₁, hopen, hdefine⟩ := run_bind_eq_some.mp h
  have hdrop : path.dropLast <+: path := List.dropLast_prefix path
  have hfront : Grows path b b₁ := (grows_openTables hopen).mono hdrop
  exact hfront.trans (grows_define hdefine (notedBelow_empty _ _)).of_last

theorem grows_openRow {u : Unit} (h : (openRow path).run b = some (u, b')) : Grows path b b' := by
  have hrows : ∀ (keys : List Path) (p : Path) (rows : List Table),
      NotedBelow keys p (.tables rows) := by
    intro keys p rows t ht
    cases ht
  obtain ⟨_, b₁, hopen, hrow⟩ := run_bind_eq_some.mp h
  have hdrop : path.dropLast <+: path := List.dropLast_prefix path
  have hfront : Grows path b b₁ := (grows_openTables hopen).mono hdrop
  obtain ⟨t, b₂, htable, hcases⟩ := run_bind_eq_some.mp hrow
  have hb₂ := tableAt_run htable
  subst b₂
  split at hcases
  · exact hfront.trans (grows_change hcases (hrows _ _ _)).of_last
  · exact hfront.trans (grows_change hcases (hrows _ _ _)).of_last
  · cases hcases

/-- Passing through tables ends at the path below the first one. -/
theorem grows_passThrough {rest path : Path} (h : (passThrough context rest).run b = some (path, b')) :
    path = context ++ rest ∧ Grows (context ++ rest) b b' := by
  induction rest generalizing context b with
  | nil =>
    cases h
    exact ⟨(List.append_nil _).symm, .refl _ _⟩
  | cons name rest ih =>
    obtain ⟨_, b₁, himplicit, hnext⟩ := run_bind_eq_some.mp h
    obtain ⟨_, b₂, hopen, hpass⟩ := run_bind_eq_some.mp hnext
    obtain ⟨rfl, hrest⟩ := ih hpass
    rw [List.append_assoc, List.singleton_append] at hrest ⊢
    have hopened : Grows (context ++ name :: rest) b₁ b₂ := (grows_openTable hopen).mono (by simp)
    exact ⟨rfl, (grows_addImplicit himplicit _).trans (hopened.trans hrest)⟩

/-! ### Assignments -/

/-- Assign a term to a key below a path. -/
def assign (outer key : Path) (t : Term) : Construct Value := do
  let name := key.getLastD ""
  let context ← passThrough outer key.dropLast
  noteKey (context ++ [name])
  let v ← evaluate context name false t
  define context name v
  noteKind context name (isArrayTerm t)
  return v

theorem evaluate_inline (context : Path) (name : String) (inArray : Bool) (fs : List (Path × Term)) :
    evaluate context name inArray (.inline fs) =
      addImplicit (context ++ [name]) >>= fun _ =>
        (if inArray then openRow (context ++ [name]) else openTable (context ++ [name])) >>= fun _ =>
          evaluateFields (context ++ [name]) [] fs >>= fun t => pure (.table t) := by
  cases inArray with
  | false => simp [evaluate]
  | true => simp [evaluate]

theorem evaluateFields_cons (path key : Path) (read : Table) (t : Term) (fs : List (Path × Term)) :
    evaluateFields path read ((key, t) :: fs) =
      assign path key t >>= fun v => evaluateFields path (read.set (key.getLastD "") v) fs := by
  rw [evaluateFields]
  simp [assign]

theorem addItem_assign (key : Path) (t : Term) :
    addItem (.assign key t) = get >>= fun b => assign b.context key t >>= fun _ => pure () := by
  simp [addItem, assign]

/-- What the value of a term brings along. -/
def Evaluates (t : Term) : Prop :=
  ∀ ⦃context : Path⦄ ⦃name : String⦄ ⦃inArray : Bool⦄ ⦃b b' : Builder⦄ ⦃v : Value⦄,
    (evaluate context name inArray t).run b = some (v, b') →
      Grows (context ++ [name]) b b' ∧ NotedBelow b'.keys (context ++ [name]) v

theorem grows_assign {outer key : Path} {t : Term} (ht : Evaluates t)
    (h : (assign outer key t).run b = some (v, b')) (path : Path) :
    Grows path b b' ∧ outer ++ key.dropLast ++ [key.getLastD ""] ∈ b'.keys := by
  obtain ⟨context, b₁, hrunPass, hrun₁⟩ := run_bind_eq_some.mp h
  obtain ⟨hcontext, hpass⟩ := grows_passThrough hrunPass
  subst context
  obtain ⟨_, b₂, hrunKey, hrun₂⟩ := run_bind_eq_some.mp hrun₁
  obtain ⟨hkey, hmem⟩ := grows_noteKey hrunKey (outer ++ key.dropLast ++ [key.getLastD ""])
  obtain ⟨w, b₃, hrunValue, hrun₃⟩ := run_bind_eq_some.mp hrun₂
  obtain ⟨hvalue, hbelow⟩ := ht hrunValue
  obtain ⟨_, b₄, hrunDefine, hrun₄⟩ := run_bind_eq_some.mp hrun₃
  obtain ⟨_, b₅, hrunKind, hpure⟩ := run_bind_eq_some.mp hrun₄
  cases hpure
  have hdefine := (grows_define hrunDefine hbelow).trans (grows_noteKind hrunKind _)
  have hafter := hvalue.trans hdefine
  have hall := (hpass.mono (List.prefix_append _ _)).trans (hkey.trans hafter)
  exact ⟨hall.settle (hafter.keys hmem) path, hafter.keys hmem⟩

theorem noted_of_assigned {key : Path} {keys : List Path} (hpath : path ≠ [])
    (h : path ++ key.dropLast ++ [key.getLastD ""] ∈ keys) :
    Noted keys (path ++ [key.getLastD ""]) := by
  cases hkey : key.dropLast with
  | nil =>
    rw [hkey, List.append_nil] at h
    exact .inl h
  | cons name rest =>
    refine .inr ⟨_, h, ?_⟩
    have hpos := List.length_pos_of_ne_nil hpath
    simp only [hkey, List.length_append, List.length_cons, List.length_nil]
    omega

mutual

theorem evaluates : ∀ {t : Term}, t.Plain → Evaluates t
  | .scalar w, .scalar hw => by
    intro context name inArray b b' v h
    rw [evaluate] at h
    cases h
    refine ⟨.refl _ _, fun t ht => ?_⟩
    subst ht
    exact hw.elim
  | .array ts, .array hts => by
    intro context name inArray b b' v h
    rw [evaluate] at h
    obtain ⟨_, b₁, hrunKind, hrun₁⟩ := run_bind_eq_some.mp h
    obtain ⟨vs, b₂, hrunAll, hpure⟩ := run_bind_eq_some.mp hrun₁
    cases hpure
    refine ⟨(grows_noteKind hrunKind _).trans (grows_evaluateAll hts hrunAll), fun t ht => ?_⟩
    cases ht
  | .inline fs, .inline hfs => by
    intro context name inArray b b' v h
    rw [evaluate_inline] at h
    obtain ⟨_, b₁, hrunImplicit, hrun₁⟩ := run_bind_eq_some.mp h
    obtain ⟨_, b₂, hrunOpen, hrun₂⟩ := run_bind_eq_some.mp hrun₁
    obtain ⟨t, b₃, hrunFields, hpure⟩ := run_bind_eq_some.mp hrun₂
    cases hpure
    have hopen : Grows (context ++ [name]) b₁ b₂ := by
      split_ifs at hrunOpen
      · exact grows_openRow hrunOpen
      · exact grows_openTable hrunOpen
    obtain ⟨hfields, hbelow⟩ := grows_evaluateFields hfs (by simp)
      (notedBelow_empty b₂.keys (context ++ [name])) hrunFields
    exact ⟨(grows_addImplicit hrunImplicit _).trans (hopen.trans hfields), hbelow⟩

theorem grows_evaluateAll : ∀ {ts : List Term}, (∀ t ∈ ts, t.Plain) → ∀ {context : Path}
    {name : String} {b b' : Builder} {vs : List Value},
    (evaluateAll context name ts).run b = some (vs, b') → Grows (context ++ [name]) b b'
  | [], _, _, _, _, _, _, h => by
    rw [evaluateAll] at h
    cases h
    exact .refl _ _
  | t :: ts, hts, context, name, b, b', vs, h => by
    rw [evaluateAll] at h
    obtain ⟨v, b₁, hrunHead, hrun₁⟩ := run_bind_eq_some.mp h
    obtain ⟨vs', b₂, hrunTail, hpure⟩ := run_bind_eq_some.mp hrun₁
    cases hpure
    have hhead := (evaluates (hts t (by simp)) hrunHead).1
    exact hhead.trans (grows_evaluateAll (fun u hu => hts u (by simp [hu])) hrunTail)

theorem grows_evaluateFields : ∀ {fs : List (Path × Term)}, (∀ f ∈ fs, f.2.Plain) →
    ∀ {path : Path}, path ≠ [] → ∀ {read t : Table} {b b' : Builder},
    NotedBelow b.keys path (.table read) → (evaluateFields path read fs).run b = some (t, b') →
      Grows path b b' ∧ NotedBelow b'.keys path (.table t)
  | [], _, _, _, _, _, _, _, hread, h => by
    rw [evaluateFields] at h
    cases h
    exact ⟨.refl _ _, hread⟩
  | (key, t) :: fs, hfs, path, hpath, read, t', b, b', hread, h => by
    rw [evaluateFields_cons] at h
    obtain ⟨v, b₁, hrunAssign, hrunRest⟩ := run_bind_eq_some.mp h
    obtain ⟨hassign, hkey⟩ := grows_assign (evaluates (hfs (key, t) (by simp))) hrunAssign path
    have hread' : NotedBelow b₁.keys path (.table (read.set (key.getLastD "") v)) := by
      intro u hu k hk
      cases hu
      rw [Table.find?_set] at hk
      split_ifs at hk with hname
      · exact hname ▸ noted_of_assigned hpath hkey
      · exact (hread _ rfl k hk).mono hassign.keys
    obtain ⟨hrest, hbelow⟩ := grows_evaluateFields (fun f hf => hfs f (by simp [hf])) hpath hread'
      hrunRest
    exact ⟨hassign.trans hrest, hbelow⟩

end

/-! ### Items -/

/-- A header opens a table, which becomes the context of what follows, and is noted as a key. -/
theorem grows_header {m : Construct Unit} {key : Path} {u : Unit}
    (hm : ∀ {b b' : Builder} {u : Unit}, m.run b = some (u, b') → Grows key b b')
    (h : (m >>= fun _ => modify (fun b => { b with context := key }) >>= fun _ =>
      noteKind key "" false >>= fun _ => noteKey key).run b = some (u, b')) (path : Path) :
    Grows path b b' := by
  obtain ⟨_, b₁, hrunOpen, hrun₁⟩ := run_bind_eq_some.mp h
  obtain ⟨_, b₂, hmodify, hrun₂⟩ := run_bind_eq_some.mp hrun₁
  cases hmodify
  obtain ⟨_, b₃, hrunKind, hrunKey⟩ := run_bind_eq_some.mp hrun₂
  obtain ⟨hkey, hmem⟩ := grows_noteKey hrunKey key
  have hcontext : Grows key b₁ { b₁ with context := key } := .of_root (List.Subset.refl _) rfl
  have hnotes := hcontext.trans ((grows_noteKind hrunKind key).trans hkey)
  exact ((hm hrunOpen).trans hnotes).settle hmem path

theorem grows_addItem {item : Item} (hitem : item.Plain) {u : Unit}
    (h : (addItem item).run b = some (u, b')) (path : Path) : Grows path b b' := by
  cases item with
  | table key => exact grows_header grows_openTable h path
  | row key => exact grows_header grows_openRow h path
  | assign key t =>
    rw [addItem_assign] at h
    obtain ⟨_, _, hget, hrun₁⟩ := run_bind_eq_some.mp h
    cases hget
    obtain ⟨v, b₁, hrunAssign, hpure⟩ := run_bind_eq_some.mp hrun₁
    cases hpure
    exact (grows_assign (evaluates hitem) hrunAssign path).1

theorem grows_addItems {items : List Item} (hitems : ∀ item ∈ items, item.Plain) {u : Unit}
    (h : (items.forM addItem).run b = some (u, b')) (path : Path) : Grows path b b' := by
  induction items generalizing b with
  | nil =>
    cases h
    exact .refl _ _
  | cons item items ih =>
    obtain ⟨_, b₁, hrunItem, hrunRest⟩ := run_bind_eq_some.mp h
    have hitem := grows_addItem (hitems item (by simp)) hrunItem path
    exact hitem.trans (ih (fun i hi => hitems i (by simp [hi])) hrunRest)

end Builder

/-- What a table at the root of a document holds was named by a key. -/
def NamesValues (decode : String → Option Document) : Prop :=
  ∀ text d, decode text = some d → ∀ g k v, d.find? g k = some v → Noted d.keys [g, k]

/-- **The keys of a document name what it holds.** -/
theorem Document.namesValues_parse? : NamesValues parse? := by
  intro text d h g k v hv
  obtain ⟨items, hitems, hdocument⟩ := Option.bind_eq_some_iff.mp h
  obtain ⟨⟨_, b⟩, hrun, hpure⟩ := Option.bind_eq_some_iff.mp hdocument
  cases hpure
  have hgrows := Builder.grows_addItems (plain_of_items? hitems) hrun []
  have hheld : b.root.Held g k := by
    unfold find? at hv
    split at hv
    · next t ht => exact ⟨t, ht, by simp [hv]⟩
    · cases hv
  rcases hgrows.held g k hheld with ⟨t, ht, -⟩ | hnoted | hbegins
  · cases ht
  · exact hnoted
  · exact absurd hbegins.length_le (by simp)

end ShaderIL.Toml
