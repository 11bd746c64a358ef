import ShaderIL.Proofs.Cache.Directory

/-!
# Builds with a cache

A `BuildCall` builds one kernel, with a cache directory or without. `World.Ready` says that a world can
take a list of calls: their programs can be written, and the cache directory they share holds a store.
A store `Records` the calls made so far if its entries are the programs of those that had a cache.

One call in a ready world does what compiling does (`Ready.run_of_refused`, `Ready.run_of_compiles`) and
keeps the world ready and the record true; so does every list of calls (`Ready.runAll`). The main result,
`BuildCall.cache_transparent`, is that from an empty cache no call can tell that the others were made,
but for the answer that its program came from the cache.
-/

namespace ShaderIL

/-! ### Calls -/

/-- A call that builds one kernel. -/
structure BuildCall where
  style : Style
  file : BuildFile
  cache : Option String
  kernel : String

namespace BuildCall

variable {b c : BuildCall} {p q : Compiled} {k : Kernel}

/-- Carry out the call. -/
def run (c : BuildCall) : StateM World (Except CommandError Bool) :=
  buildKernel c.style c.file c.cache c.kernel

/-- What the call's kernel is compiled for. -/
def options (c : BuildCall) : Options :=
  ((Registry.shipped.find? c.kernel).map c.file.options).getD {}

/-- Compiling with the call's own name, parameters and options gives the program. -/
def Compiles (c : BuildCall) (p : Compiled) : Prop :=
  compileKernel c.kernel c.file.params c.options = .ok (.ok p)

/-- The file that the call's program goes to. -/
def output (c : BuildCall) : Path := c.file.output c.kernel

/-- The answer to the call is a success exactly if its kernel compiles. -/
def Answers (c : BuildCall) (r : Except CommandError Bool) : Prop :=
  (∃ hit, r = .ok hit) ↔ ∃ p, c.Compiles p

/-- What decides the call's program. -/
def buildId (c : BuildCall) : BuildId :=
  ⟨version, c.kernel, c.options.target, c.options.device, c.file.params⟩

/-- The calls build the same: the same kernel for the same target and device, with the same
parameters. -/
structure SameBuild (b c : BuildCall) : Prop where
  kernel : b.kernel = c.kernel
  target : b.options.target = c.options.target
  device : b.options.device = c.options.device
  params : b.file.params = c.file.params

theorem Compiles.unique (hp : c.Compiles p) (hq : c.Compiles q) : p = q :=
  Except.ok.inj (Except.ok.inj (hp.symm.trans hq))

theorem Compiles.registered (h : c.Compiles p) : ∃ k, Registry.shipped.find? c.kernel = some k := by
  rcases hfind : Registry.shipped.find? c.kernel with _ | k
  · unfold Compiles compileKernel at h
    rw [hfind] at h
    cases h
  · exact ⟨k, rfl⟩

theorem options_eq (h : Registry.shipped.find? c.kernel = some k) :
    c.options = c.file.options k := by
  rw [options, h]
  rfl

theorem threads_options (c : BuildCall) : c.options.threads = {} := by
  unfold options
  rcases Registry.shipped.find? c.kernel with _ | k <;> rfl

theorem name_of_find {name : String} (h : Registry.shipped.find? name = some k) : k.name = name := by
  unfold Registry.find? at h
  have hname := List.find?_some h
  exact eq_of_beq hname

theorem buildId_eq (h : Registry.shipped.find? c.kernel = some k) :
    c.file.buildId k = c.buildId := by
  rw [buildId, BuildFile.buildId, options_eq h, name_of_find h]

theorem SameBuild.symm (h : b.SameBuild c) : c.SameBuild b :=
  ⟨h.kernel.symm, h.target.symm, h.device.symm, h.params.symm⟩

theorem SameBuild.buildId (h : b.SameBuild c) : b.buildId = c.buildId := by
  rw [BuildCall.buildId, BuildCall.buildId, h.kernel, h.target, h.device, h.params]

theorem SameBuild.compiles (h : b.SameBuild c) (hc : c.Compiles p) : b.Compiles p := by
  have hoptions : b.options = c.options := by
    have hthreads := (threads_options b).trans (threads_options c).symm
    have htarget := h.target
    have hdevice := h.device
    generalize b.options = o at *
    generalize c.options = o' at *
    cases o
    cases o'
    rw [Options.mk.injEq]
    exact ⟨htarget, hdevice, hthreads⟩
  rw [Compiles, h.kernel, h.params, hoptions]
  exact hc

theorem name_cases {name : String} (h : Registry.shipped.find? name = some k) :
    name = "matmul" ∨ name = "nbody" := by
  have hmem : k.name ∈ Registry.shipped.names := by
    unfold Registry.find? at h
    exact List.mem_map_of_mem (List.mem_of_find?_eq_some h)
  rw [name_of_find h] at hmem
  simpa [Registry.names, Registry.shipped] using hmem

/-- The file of a program has a name that no entry has. -/
theorem foreignName_output {name : String} (h : Registry.shipped.find? name = some k) :
    Path.ForeignName (name ++ ".il") := by
  have hshort : (name ++ ".il").toList.length < 70 := by
    rcases name_cases h with rfl | rfl <;> decide
  refine ⟨?_, ?_, fun l hl => ?_⟩
  · rcases name_cases h with rfl | rfl <;>
      exact ⟨by decide, by decide, by decide, by decide, by decide, by decide⟩
  · rcases name_cases h with rfl | rfl <;> decide
  · rw [hl, l.length_fileName] at hshort
    omega

theorem output_eq (h : Registry.shipped.find? c.kernel = some k) :
    c.output = (Path.ofText c.file.out).push (c.kernel ++ ".il") :=
  Path.append_plain (foreignName_output h).toPlainName _

end BuildCall

/-! ### The record of the calls -/

/-- What a call leaves in its cache under a key. -/
def BuildCall.Keeps (c : BuildCall) (k : Key) (f : Stored) : Prop :=
  c.cache ≠ none ∧ ∃ p, c.Compiles p ∧ c.buildId.key = k ∧
    f = .entry (Entry.ofCompiled c.kernel p).stamped

/-- The files of the store are those that the calls left. -/
def Store.Records (s : Store) (calls : List BuildCall) : Prop :=
  ∀ k f, s.find? k = some f ↔ ∃ c ∈ calls, c.Keeps k f

namespace Store.Records

variable {s : Store} {before : List BuildCall} {c : BuildCall} {p : Compiled}

theorem empty : Store.Records {} [] := by
  intro k f
  simp [Store.find?]

theorem exists_keeps_append {k : Key} {f : Stored} :
    (∃ b ∈ before ++ [c], b.Keeps k f) ↔ (∃ b ∈ before, b.Keeps k f) ∨ c.Keeps k f := by
  simp [or_and_right, exists_or]

theorem append_of_not_keeps (h : s.Records before) (hc : ∀ k f, ¬ c.Keeps k f) :
    s.Records (before ++ [c]) := by
  intro k f
  rw [exists_keeps_append, ← h k f, or_iff_left (hc k f)]

theorem append_of_found (h : s.Records before) (hp : c.Compiles p)
    (hfind : s.find? c.buildId.key = some (.entry (Entry.ofCompiled c.kernel p).stamped)) :
    s.Records (before ++ [c]) := by
  intro k f
  rw [exists_keeps_append, ← h k f]
  refine ⟨.inl, ?_⟩
  rintro (hfound | ⟨-, q, hq, rfl, rfl⟩)
  · exact hfound
  · rw [← hp.unique hq]
    exact hfind

theorem append_of_missed (h : s.Records before) (hcache : c.cache ≠ none) (hp : c.Compiles p)
    (hfind : s.find? c.buildId.key = none) :
    (s.put c.buildId.key (Entry.ofCompiled c.kernel p)).Records (before ++ [c]) := by
  intro k f
  rw [Store.find?_put, exists_keeps_append, ← h k f]
  split_ifs with hk
  · subst hk
    rw [hfind]
    constructor
    · intro hf
      exact .inr ⟨hcache, p, hp, rfl, (Option.some.inj hf).symm⟩
    · rintro (hfound | ⟨-, q, hq, -, rfl⟩)
      · cases hfound
      · rw [hp.unique hq]
  · refine ⟨.inl, ?_⟩
    rintro (hfound | ⟨-, q, -, hkey, -⟩)
    · exact hfound
    · exact absurd hkey.symm hk

end Store.Records

/-! ### Digests -/

/-- The digests of the calls tell their builds apart: each target is the one its code stands for, and
no two digested texts collide. -/
structure Distinguishable (calls : List BuildCall) : Prop where
  targets : ∀ c ∈ calls, Target.ofCode c.options.target.code = c.options.target
  digests : Set.InjOn Sha256.digest {m | ∃ c ∈ calls, m = Text.bytes c.buildId.encoding}

theorem Distinguishable.separable {calls : List BuildCall} {c : BuildCall} {k : Kernel}
    (h : Distinguishable calls) (hc : c ∈ calls) (hk : Registry.shipped.find? c.kernel = some k) :
    c.buildId.Separable := by
  refine ⟨by change Char.ofNat 0 ∉ version.toList; decide, ?_, h.targets c hc⟩
  change Char.ofNat 0 ∉ c.kernel.toList
  rcases BuildCall.name_cases hk with hname | hname <;> rw [hname] <;> decide

theorem Distinguishable.sameBuild {calls : List BuildCall} {b c : BuildCall} {j k : Kernel}
    (h : Distinguishable calls) (hb : b ∈ calls) (hc : c ∈ calls)
    (hj : Registry.shipped.find? b.kernel = some j) (hk : Registry.shipped.find? c.kernel = some k)
    (hkey : b.buildId.key = c.buildId.key) : b.SameBuild c := by
  have hbytes := h.digests ⟨b, hb, rfl⟩ ⟨c, hc, rfl⟩ hkey
  have hbuild := BuildId.encoding_injective (h.separable hb hj) (h.separable hc hk)
    (Text.bytes_injective hbytes)
  rw [BuildCall.buildId, BuildCall.buildId, BuildId.mk.injEq] at hbuild
  obtain ⟨-, hkernel, htarget, hdevice, hparams⟩ := hbuild
  exact ⟨hkernel, htarget, hdevice, hparams⟩

/-! ### One call -/

/-- A world can take the calls: the programs can be written where they go, and the calls with a cache
share one whose files are those of the store. -/
structure World.Ready (w : World) (cache : String) (place : List String) (calls : List BuildCall)
    (s : Store) : Prop where
  outputs : ∀ c ∈ calls, ∀ p, c.Compiles p → w.tree.Accepts w.directory c.output.text
  shared : ∀ c ∈ calls, c.cache ≠ none → c.cache = some cache
  caches : ∀ c ∈ calls, c.cache ≠ none → w.Caches cache place s

namespace World.Ready

variable {w : World} {cache : String} {place : List String} {calls before : List BuildCall}
  {s : Store} {c : BuildCall} {p : Compiled} {k : Kernel}

/-- Programs can be written as long as foreign names go on being accepted. -/
theorem outputs_of_accepts {w' : World} (h : w.Ready cache place calls s)
    (haccepts : ∀ {path : Path} {name : String}, Path.ForeignName name →
      w.tree.Accepts w.directory (path.push name).text →
      w'.tree.Accepts w'.directory (path.push name).text) :
    ∀ c ∈ calls, ∀ p, c.Compiles p → w'.tree.Accepts w'.directory c.output.text := by
  intro c hc p hp
  obtain ⟨k, hk⟩ := hp.registered
  have hbefore := h.outputs c hc p hp
  rw [BuildCall.output_eq hk] at hbefore ⊢
  exact haccepts (BuildCall.foreignName_output hk) hbefore

theorem writeOutput (h : w.Ready cache place calls s) (hc : c ∈ calls) (hp : c.Compiles p)
    (x : Stored) : ∃ w', (Shell.writeFile c.output.text x : StateM World _).run w = (.ok (), w') ∧
      w'.Ready cache place calls s ∧ w'.tree.read w'.directory c.output.text = .ok x := by
  obtain ⟨k, hk⟩ := hp.registered
  have hforeign := BuildCall.foreignName_output hk
  obtain ⟨q, t, hresolve, hwrite, hputs⟩ := (h.outputs c hc p hp).write x
  have hlast : q.getLast? = some (c.kernel ++ ".il") := by
    rw [BuildCall.output_eq hk] at hresolve
    obtain ⟨above, -, rfl⟩ := FileTree.resolve_push_ok hforeign.toPlainName hresolve
    exact List.getLast?_concat
  refine ⟨_, World.writeFile_run hwrite, ⟨h.outputs_of_accepts ?_, h.shared, ?_⟩, ?_⟩
  · intro path name hname haccepts
    exact hputs.accepts hname.toPlainName (fun hfile => by cases hfile) haccepts
  · intro b hb hcache
    exact (h.caches b hb hcache).of_puts rfl hputs hlast hforeign
  · exact FileTree.read_ok_iff.mpr ⟨q, hputs.resolve hresolve, hputs.same⟩

theorem writeEntry (h : w.Ready cache place calls s) (hc : c ∈ calls) (hcache : c.cache ≠ none)
    (l : Key) (e : Entry) : ∃ w', (ShaderIL.writeEntry c.cache l e : StateM World _).run w =
      (.ok (), w') ∧ w'.Ready cache place calls (s.put l e) ∧ w.SparesForeign w' := by
  rw [h.shared c hc hcache]
  obtain ⟨w', hrun, hcaches, hspares⟩ := (h.caches c hc hcache).writeEntry_run l e
  exact ⟨w', hrun, ⟨h.outputs_of_accepts hspares.accepts, h.shared, fun _ _ _ => hcaches⟩, hspares⟩

theorem run_of_missed (hk : Registry.shipped.find? c.kernel = some k)
    (hread : (readEntry c.cache c.buildId.key : StateM World _).run w = (.ok none, w)) :
    c.run.run w = (buildFresh c.file c.cache k : StateM World _).run w := by
  rw [← BuildCall.buildId_eq hk] at hread
  rw [BuildCall.run, buildKernel, hk]
  exact World.bind_run hread

theorem buildFresh_of_refused (hk : Registry.shipped.find? c.kernel = some k)
    (hp : ∀ p, ¬ c.Compiles p) :
    ∃ e, (buildFresh c.file c.cache k : StateM World _).run w = (.error e, w) := by
  rw [buildFresh, BuildCall.name_of_find hk, ← BuildCall.options_eq hk]
  rcases hcompile : compileKernel c.kernel c.file.params c.options with f | e | p
  · exact ⟨_, rfl⟩
  · exact ⟨_, rfl⟩
  · exact absurd hcompile (hp p)

theorem buildFresh_of_compiles {w₁ w₂ : World} (hk : Registry.shipped.find? c.kernel = some k)
    (hp : c.Compiles p)
    (hwrite : (Shell.writeFile c.output.text (.text p.text) : StateM World _).run w = (.ok (), w₁))
    (hentry : (ShaderIL.writeEntry c.cache c.buildId.key (.ofCompiled c.kernel p) :
      StateM World _).run w₁ = (.ok (), w₂)) :
    (buildFresh c.file c.cache k : StateM World _).run w = (.ok false, w₂) := by
  have hcompile : compileKernel c.kernel c.file.params c.options = .ok (.ok p) := hp
  rw [buildFresh, BuildCall.buildId_eq hk, BuildCall.name_of_find hk, ← BuildCall.options_eq hk,
    hcompile]
  exact (World.bind_run hwrite).trans (World.bind_run hentry)

theorem readEntry_of_missed (h : w.Ready cache place calls s) (hc : c ∈ calls)
    (hmissed : c.cache ≠ none → s.find? c.buildId.key = none) :
    (readEntry c.cache c.buildId.key : StateM World _).run w = (.ok none, w) := by
  by_cases hcache : c.cache = none
  · rw [hcache]
    rfl
  · rw [h.shared c hc hcache, (h.caches c hc hcache).readEntry_run,
      Store.get_eq_none (hmissed hcache)]
    rfl

theorem run_uncached (h : w.Ready cache place calls s) (hc : c ∈ calls) (hp : c.Compiles p)
    (hcache : c.cache = none) : ∃ w', c.run.run w = (.ok false, w') ∧
      w'.Ready cache place calls s ∧
      w'.tree.read w'.directory c.output.text = .ok (.text p.text) := by
  obtain ⟨k, hk⟩ := hp.registered
  obtain ⟨w₁, hwrite, hready, hread⟩ := h.writeOutput hc hp (.text p.text)
  have hentry : (ShaderIL.writeEntry c.cache c.buildId.key (.ofCompiled c.kernel p) :
      StateM World _).run w₁ = (.ok (), w₁) := by
    rw [hcache]
    rfl
  have hmissed := h.readEntry_of_missed hc (absurd hcache)
  exact ⟨w₁, (run_of_missed hk hmissed).trans (buildFresh_of_compiles hk hp hwrite hentry), hready,
    hread⟩

/-- With a cache that has no entry the program is compiled, written, and put into the cache. -/
theorem run_missed (h : w.Ready cache place calls s) (hc : c ∈ calls) (hp : c.Compiles p)
    (hcache : c.cache ≠ none) (hfind : s.find? c.buildId.key = none) :
    ∃ w', c.run.run w = (.ok false, w') ∧
      w'.Ready cache place calls (s.put c.buildId.key (.ofCompiled c.kernel p)) ∧
      w'.tree.read w'.directory c.output.text = .ok (.text p.text) := by
  obtain ⟨k, hk⟩ := hp.registered
  obtain ⟨w₁, hwrite, hready, hread⟩ := h.writeOutput hc hp (.text p.text)
  obtain ⟨w₂, hentry, hready, hspares⟩ :=
    hready.writeEntry hc hcache c.buildId.key (.ofCompiled c.kernel p)
  have hmissed := h.readEntry_of_missed hc fun _ => hfind
  refine ⟨w₂, (run_of_missed hk hmissed).trans (buildFresh_of_compiles hk hp hwrite hentry), hready,
    ?_⟩
  rw [BuildCall.output_eq hk] at hread ⊢
  exact hspares.read (BuildCall.foreignName_output hk) hread

/-- With a cache that has an entry the program of the entry is written. -/
theorem run_found {e : Entry} (h : w.Ready cache place calls s) (hc : c ∈ calls)
    (hp : c.Compiles p) (hcache : c.cache ≠ none)
    (hfind : s.find? c.buildId.key = some (.entry e.stamped)) :
    ∃ w', c.run.run w = (.ok true, w') ∧ w'.Ready cache place calls s ∧
      w'.tree.read w'.directory c.output.text = .ok (.text e.program) := by
  obtain ⟨k, hk⟩ := hp.registered
  obtain ⟨w₁, hwrite, hready, hread⟩ := h.writeOutput hc hp (.text e.program)
  have hentry : (readEntry c.cache (c.file.buildId k).key : StateM World _).run w =
      (.ok (some e.stamped), w) := by
    rw [BuildCall.buildId_eq hk, h.shared c hc hcache, (h.caches c hc hcache).readEntry_run,
      Store.get_eq_entry hfind]
    rfl
  refine ⟨w₁, ?_, hready, hread⟩
  rw [BuildCall.run, buildKernel, hk]
  exact (World.bind_run hentry).trans (World.bind_run hwrite)

/-- A call with a cache finds an entry exactly if an earlier call with a cache built the same, and the
entry is the program that the call itself would compile. -/
theorem find?_of_compiles (hd : Distinguishable calls) (hs : s.Records before)
    (hbefore : before ⊆ calls) (hc : c ∈ calls) (hp : c.Compiles p) :
    s.find? c.buildId.key = none ∧ (¬ ∃ b ∈ before, b.cache ≠ none ∧ b.SameBuild c) ∨
      s.find? c.buildId.key = some (.entry (Entry.ofCompiled c.kernel p).stamped) ∧
        ∃ b ∈ before, b.cache ≠ none ∧ b.SameBuild c := by
  rcases hfind : s.find? c.buildId.key with _ | f
  · refine .inl ⟨rfl, ?_⟩
    rintro ⟨b, hb, hcache, hsame⟩
    have hfound := (hs c.buildId.key (.entry (Entry.ofCompiled b.kernel p).stamped)).mpr
      ⟨b, hb, hcache, p, hsame.compiles hp, congrArg BuildId.key hsame.buildId, rfl⟩
    rw [hfind] at hfound
    cases hfound
  · obtain ⟨b, hb, hcache, q, hq, hkey, rfl⟩ := (hs c.buildId.key f).mp hfind
    obtain ⟨j, hj⟩ := hq.registered
    obtain ⟨k, hk⟩ := hp.registered
    have hsame := hd.sameBuild (hbefore hb) hc hj hk hkey
    refine .inr ⟨?_, b, hb, hcache, hsame⟩
    rw [hsame.kernel, hq.unique (hsame.compiles hp)]

/-- A call whose kernel compiles succeeds, writes that program, and answers whether an earlier call with
a cache built the same. -/
theorem run_of_compiles (h : w.Ready cache place calls s) (hd : Distinguishable calls)
    (hs : s.Records before) (hbefore : before ⊆ calls) (hc : c ∈ calls) (hp : c.Compiles p) :
    ∃ hit w' s', c.run.run w = (.ok hit, w') ∧ w'.Ready cache place calls s' ∧
      s'.Records (before ++ [c]) ∧
      w'.tree.read w'.directory c.output.text = .ok (.text p.text) ∧
      (hit = true ↔ c.cache ≠ none ∧ ∃ b ∈ before, b.cache ≠ none ∧ b.SameBuild c) := by
  by_cases hcache : c.cache = none
  · obtain ⟨w', hrun, hready, hread⟩ := h.run_uncached hc hp hcache
    exact ⟨false, w', s, hrun, hready, hs.append_of_not_keeps fun _ _ hkeeps => hkeeps.1 hcache, hread,
      by simp [hcache]⟩
  · rcases find?_of_compiles hd hs hbefore hc hp with ⟨hfind, hnone⟩ | ⟨hfind, hsome⟩
    · obtain ⟨w', hrun, hready, hread⟩ := h.run_missed hc hp hcache hfind
      exact ⟨false, w', _, hrun, hready, hs.append_of_missed hcache hp hfind, hread,
        by simpa [hcache] using hnone⟩
    · obtain ⟨w', hrun, hready, hread⟩ := h.run_found hc hp hcache hfind
      exact ⟨true, w', s, hrun, hready, hs.append_of_found hp hfind, hread,
        ⟨fun _ => ⟨hcache, hsome⟩, fun _ => rfl⟩⟩

theorem run_of_refused (h : w.Ready cache place calls s) (hd : Distinguishable calls)
    (hs : s.Records before) (hbefore : before ⊆ calls) (hc : c ∈ calls)
    (hp : ∀ p, ¬ c.Compiles p) : ∃ e, c.run.run w = (.error e, w) := by
  rcases hk : Registry.shipped.find? c.kernel with _ | k
  · exact ⟨.unknownKernel, by rw [BuildCall.run, buildKernel, hk]; rfl⟩
  · -- an entry under the call's key would come from the same build, which compiles
    have hmissed : s.find? c.buildId.key = none := by
      rcases hfind : s.find? c.buildId.key with _ | f
      · rfl
      · obtain ⟨b, hb, -, q, hq, hkey, -⟩ := (hs c.buildId.key f).mp hfind
        obtain ⟨j, hj⟩ := hq.registered
        have hsame := hd.sameBuild hc (hbefore hb) hk hj hkey.symm
        exact absurd (hsame.compiles hq) (hp q)
    rw [run_of_missed hk (h.readEntry_of_missed hc fun _ => hmissed)]
    exact buildFresh_of_refused hk hp

/-! ### Many calls -/

/-- A call succeeds exactly if its kernel compiles; either way the world stays ready and the record
true. -/
theorem run_spec (h : w.Ready cache place calls s) (hd : Distinguishable calls)
    (hs : s.Records before) (hbefore : before ⊆ calls) (hc : c ∈ calls) :
    ∃ r w' s', c.run.run w = (r, w') ∧ w'.Ready cache place calls s' ∧
      s'.Records (before ++ [c]) ∧ c.Answers r := by
  by_cases hp : ∃ p, c.Compiles p
  · obtain ⟨p, hp⟩ := hp
    obtain ⟨hit, w', s', hrun, hready, hrecords, -, -⟩ := h.run_of_compiles hd hs hbefore hc hp
    exact ⟨.ok hit, w', s', hrun, hready, hrecords, fun _ => ⟨p, hp⟩, fun _ => ⟨hit, rfl⟩⟩
  · rw [not_exists] at hp
    obtain ⟨e, hrun⟩ := h.run_of_refused hd hs hbefore hc hp
    refine ⟨.error e, w, s, hrun, h, ?_, ?_, ?_⟩
    · exact hs.append_of_not_keeps fun _ _ ⟨_, p, hcompiles, _⟩ => hp p hcompiles
    · rintro ⟨hit, hok⟩
      cases hok
    · rintro ⟨p, hcompiles⟩
      exact absurd hcompiles (hp p)

/-- After any calls the world is ready for more, and the record has them all. -/
theorem runAll {now : List BuildCall} (h : w.Ready cache place calls s) (hd : Distinguishable calls)
    (hs : s.Records before) (hbefore : before ⊆ calls) (hnow : now ⊆ calls) :
    ∃ rs w' s', (now.mapM BuildCall.run).run w = (rs, w') ∧ w'.Ready cache place calls s' ∧
      s'.Records (before ++ now) ∧ List.Forall₂ BuildCall.Answers now rs := by
  induction now generalizing w s before with
  | nil => exact ⟨[], w, s, rfl, h, by rwa [List.append_nil], .nil⟩
  | cons c now ih =>
    obtain ⟨hc, hrest⟩ := List.cons_subset.mp hnow
    obtain ⟨r, w₁, s₁, hrun, hready, hrecords, hanswers⟩ := h.run_spec hd hs hbefore hc
    have hsofar : before ++ [c] ⊆ calls :=
      List.append_subset.mpr ⟨hbefore, List.cons_subset.mpr ⟨hc, List.nil_subset _⟩⟩
    obtain ⟨rs, w₂, s₂, hruns, hready, hrecords, hall⟩ := ih hready hrecords hsofar hrest
    refine ⟨r :: rs, w₂, s₂, ?_, hready, ?_, .cons hanswers hall⟩
    · rw [List.mapM_cons]
      exact (World.bind_run hrun).trans (World.bind_run hruns)
    · rwa [List.append_assoc] at hrecords

end World.Ready

namespace BuildCall

/-- A call that is answered with success, among calls and their answers. -/
theorem exists_answer {before : List BuildCall} {rs : List (Except CommandError Bool)} {b : BuildCall}
    {p : Compiled} (h : List.Forall₂ Answers before rs) (hb : b ∈ before) (hp : b.Compiles p) :
    ∃ hit, (b, .ok hit) ∈ before.zip rs := by
  induction h with
  | nil => cases hb
  | cons hanswers _ ih =>
    rcases List.mem_cons.mp hb with rfl | hb
    · obtain ⟨hit, rfl⟩ := hanswers.mpr ⟨p, hp⟩
      exact ⟨hit, List.mem_cons_self⟩
    · obtain ⟨hit, hmem⟩ := ih hb
      exact ⟨hit, List.mem_cons_of_mem _ hmem⟩

/-- What a call after others answers and leaves behind, said without the cache: it succeeds exactly if
its kernel compiles, its file then holds that program, and it reports a hit exactly if it has a cache and
a call before it that succeeded with a cache built the same. -/
structure Transparent (before : List BuildCall) (rs : List (Except CommandError Bool))
    (c : BuildCall) (r : Except CommandError Bool) (w : World) : Prop where
  succeeds_iff : (∃ hit, r = .ok hit) ↔ ∃ p, c.Compiles p
  writes : ∀ p, c.Compiles p → w.tree.read w.directory c.output.text = .ok (.text p.text)
  hit_iff : r = .ok true ↔ c.cache ≠ none ∧
    ∃ b hit, (b, .ok hit) ∈ before.zip rs ∧ b.cache ≠ none ∧ b.SameBuild c

/-- **The cache does not show.** From an empty cache, every call of every list of calls is transparent.
-/
theorem cache_transparent {w w₁ w₂ : World} {cache : String} {place : List String}
    {before : List BuildCall} {c : BuildCall} {rs : List (Except CommandError Bool)}
    {r : Except CommandError Bool} (hready : w.Ready cache place (before ++ [c]) {})
    (hd : Distinguishable (before ++ [c])) (hbefore : (before.mapM run).run w = (rs, w₁))
    (hcall : c.run.run w₁ = (r, w₂)) : Transparent before rs c r w₂ := by
  have hsub : before ⊆ before ++ [c] := List.subset_append_left _ _
  have hc : c ∈ before ++ [c] := List.mem_append_right _ (List.mem_singleton_self c)
  obtain ⟨rs', w', s, hruns, hready, hrecords, hanswers⟩ :=
    hready.runAll hd Store.Records.empty (List.nil_subset _) hsub
  obtain ⟨rfl, rfl⟩ := Prod.mk.inj (hruns.symm.trans hbefore)
  by_cases hp : ∃ p, c.Compiles p
  · obtain ⟨p, hp⟩ := hp
    obtain ⟨hit, w'', -, hrun, -, -, hread, hhit⟩ := hready.run_of_compiles hd hrecords hsub hc hp
    obtain ⟨rfl, rfl⟩ := Prod.mk.inj (hrun.symm.trans hcall)
    refine ⟨⟨fun _ => ⟨p, hp⟩, fun _ => ⟨hit, rfl⟩⟩, fun q hq => ?_, ?_⟩
    · rw [← hp.unique hq]
      exact hread
    · rw [Except.ok.injEq, hhit]
      refine and_congr_right fun _ => ⟨?_, ?_⟩
      · rintro ⟨b, hb, hcache, hsame⟩
        obtain ⟨hit', hmem⟩ := exists_answer hanswers hb (hsame.compiles hp)
        exact ⟨b, hit', hmem, hcache, hsame⟩
      · rintro ⟨b, hit', hmem, hcache, hsame⟩
        exact ⟨b, (List.of_mem_zip hmem).1, hcache, hsame⟩
  · rw [not_exists] at hp
    obtain ⟨e, hrun⟩ := hready.run_of_refused hd hrecords hsub hc hp
    obtain ⟨rfl, rfl⟩ := Prod.mk.inj (hrun.symm.trans hcall)
    refine ⟨⟨?_, ?_⟩, fun q hq => absurd hq (hp q), ⟨?_, ?_⟩⟩
    · rintro ⟨hit, hok⟩
      cases hok
    · rintro ⟨p, hcompiles⟩
      exact absurd hcompiles (hp p)
    · intro hok
      cases hok
    · -- an earlier success of the same build would compile here too
      rintro ⟨-, b, hit, hmem, -, hsame⟩
      obtain ⟨p, hcompiles⟩ := ((List.forall₂_iff_zip.mp hanswers).2 hmem).mp ⟨hit, rfl⟩
      exact absurd (hsame.symm.compiles hcompiles) (hp p)

/-! ### A hit through another spelling of the target -/

/-- A world with an output directory and a cache directory, both empty. -/
def emptyDirectories : World :=
  { tree := ⟨[(["build"], .directory), (["cache"], .directory)]⟩ }

/-- Build the second kernel for a target, or for its own. -/
def nbodyFor (target : Option Target) : BuildCall :=
  ⟨.plain, { BuildFile.default 1 with target }, some "/cache", "nbody"⟩

theorem compiles_nbodyFor_none : ∃ p, (nbodyFor none).Compiles p := by
  have hcompile : ((compileKernel "nbody" {} { target := .compute }).toOption.bind
      Except.toOption).isSome = true := by decide +kernel
  obtain ⟨p, hp⟩ := Option.isSome_iff_exists.mp hcompile
  obtain ⟨x, hx, hxp⟩ := Option.bind_eq_some_iff.mp hp
  refine ⟨p, ?_⟩
  change compileKernel "nbody" {} { target := .compute } = .ok (.ok p)
  rcases hresult : compileKernel "nbody" {} { target := .compute } with f | e | q
  · rw [hresult] at hx
    cases hx
  · rw [hresult] at hx
    cases hx
    cases hxp
  · rw [hresult] at hx
    cases hx
    cases hxp
    rfl

theorem emptyDirectories_caches :
    emptyDirectories.Caches "/cache" ["cache", "kernels"] {} where
  resolves := by decide
  room := by decide
  folder := .inr ⟨by decide, fun _ => rfl⟩
  entries := fun _ => rfl

theorem emptyDirectories_ready {calls : List BuildCall} (h : ∀ c ∈ calls, ∃ t, c = nbodyFor t) :
    emptyDirectories.Ready "/cache" ["cache", "kernels"] calls {} := by
  refine ⟨fun c hc p _ => ?_, fun c hc _ => ?_, fun _ _ _ => emptyDirectories_caches⟩
  · obtain ⟨t, rfl⟩ := h c hc
    refine ⟨["build", "nbody.il"], ?_, ?_, ?_⟩
    · have houtput : (nbodyFor t).output = (nbodyFor none).output := rfl
      rw [houtput]
      decide +kernel
    · decide
    · decide
  · obtain ⟨t, rfl⟩ := h c hc
    rfl

theorem distinguishable_nbodyFor :
    Distinguishable [nbodyFor none, nbodyFor (some .pixel), nbodyFor (some .compute)] := by
  have hkeys : (nbodyFor none).buildId.key ≠ (nbodyFor (some .pixel)).buildId.key := by
    decide +kernel
  have hsame : (nbodyFor (some .compute)).buildId = (nbodyFor none).buildId := by decide +kernel
  refine ⟨by decide +kernel, ?_⟩
  intro m hm n hn hdigest
  obtain ⟨b, hb, hm⟩ := hm
  obtain ⟨c, hc, hn⟩ := hn
  rw [hm, hn] at hdigest ⊢
  simp only [List.mem_cons, List.not_mem_nil, or_false] at hb hc
  rcases hb with rfl | rfl | rfl <;> rcases hc with rfl | rfl | rfl
  · rfl
  · exact absurd hdigest hkeys
  · rw [hsame]
  · exact absurd hdigest.symm hkeys
  · rfl
  · rw [hsame] at hdigest
    exact absurd hdigest.symm hkeys
  · rw [hsame]
  · rw [hsame] at hdigest
    exact absurd hdigest hkeys
  · rfl

/-- A kernel built for its own target is found by a build that names this target, also if it was built
for another target in between. -/
theorem hit_of_named_target :
    emptyDirectories.Ready "/cache" ["cache", "kernels"]
        [nbodyFor none, nbodyFor (some .pixel), nbodyFor (some .compute)] {} ∧
      Distinguishable [nbodyFor none, nbodyFor (some .pixel), nbodyFor (some .compute)] ∧
      ∃ rs w₁ w₂, ([nbodyFor none, nbodyFor (some .pixel)].mapM run).run emptyDirectories = (rs, w₁) ∧
        (nbodyFor (some .compute)).run.run w₁ = (.ok true, w₂) := by
  have hmem : ∀ c ∈ [nbodyFor none, nbodyFor (some .pixel), nbodyFor (some .compute)],
      ∃ t, c = nbodyFor t := by
    intro c hc
    simp only [List.mem_cons, List.not_mem_nil, or_false] at hc
    rcases hc with rfl | rfl | rfl <;> exact ⟨_, rfl⟩
  have hready := emptyDirectories_ready hmem
  obtain ⟨p, hp⟩ := compiles_nbodyFor_none
  obtain ⟨rs, w₁, s, hruns, -, -, hanswers⟩ := hready.runAll distinguishable_nbodyFor
    Store.Records.empty (List.nil_subset _)
    (List.subset_append_left [nbodyFor none, nbodyFor (some .pixel)] [nbodyFor (some .compute)])
  obtain ⟨⟨r, w₂⟩, hcall⟩ : ∃ x, (nbodyFor (some .compute)).run.run w₁ = x := ⟨_, rfl⟩
  have htransparent := cache_transparent hready distinguishable_nbodyFor hruns hcall
  obtain ⟨hit, hanswer⟩ := exists_answer hanswers List.mem_cons_self hp
  have hsame : (nbodyFor none).SameBuild (nbodyFor (some .compute)) := ⟨rfl, rfl, rfl, rfl⟩
  have hhit := htransparent.hit_iff.mpr
    ⟨Option.some_ne_none _, _, hit, hanswer, Option.some_ne_none _, hsame⟩
  rw [hhit] at hcall
  exact ⟨hready, distinguishable_nbodyFor, rs, w₁, w₂, hruns, hcall⟩

end BuildCall

end ShaderIL
