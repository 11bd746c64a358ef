import ShaderIL.BuildFile
import ShaderIL.Proofs.Draft
import ShaderIL.Proofs.Toml.Document

/-!
# Fields of a build file

Ten fields make up a build file; `Field.setting` is what a build file says about one and
`Field.meaning?` what a value of a document says, if it is accepted. A document is accepted exactly if
its values have the shapes of the fields, all its keys are known, and the values under the very names
of the fields mean something (`ofDocument_isOk_iff`). Then each field follows the document
(`ofDocument_eq_ok_iff`): it has the value under its very name, or the default if there is none. If the
decoder of the text names what a table holds by a key, this can be said of the keys alone
(`exact_keys_decide_fields`). A key in another spelling is accepted and ignored
(`respelled_key_ignored`).
-/

namespace ShaderIL.BuildFile

/-! ### Fields and their keys -/

/-- A field of a build file. -/
inductive Field where
  | target | out | jobs | kernels
  | maxInputs | maxBuffers | maxBufferSize
  | tileX | tileY | unroll
  deriving DecidableEq, Repr

namespace Field

/-- All fields. -/
def all : List Field :=
  [target, out, jobs, kernels, maxInputs, maxBuffers, maxBufferSize, tileX, tileY, unroll]

/-- The group of a field. -/
def group : Field → String
  | target | out | jobs | kernels => "build"
  | maxInputs | maxBuffers | maxBufferSize => "device"
  | tileX | tileY | unroll => "params"

/-- The name of a field in its group. -/
def name : Field → String
  | target => "target"
  | out => "out"
  | jobs => "jobs"
  | kernels => "kernels"
  | maxInputs => "max_inputs"
  | maxBuffers => "max_constant_buffers"
  | maxBufferSize => "max_constant_buffer_size"
  | tileX => "tile_x"
  | tileY => "tile_y"
  | unroll => "unroll"

/-- The key of a field in its very spelling. -/
def key (f : Field) : Toml.Path := [f.group, f.name]

/-- What the value of a field looks like. -/
def shape : Field → Shape
  | target | out => .text
  | kernels => .texts
  | _ => .whole

end Field

/-- The field that a key denotes: group and name are those of the field, or equal them up to letter
case. -/
def field? : Toml.Path → Option Field
  | [g, k] => do
    let group ← group? g
    let name ← denoted? ((fieldsOf group).map Prod.fst) k
    Field.all.find? fun f => f.group == group && f.name == name
  | _ => none

theorem field?_key (f : Field) : field? f.key = some f := by
  cases f <;> decide

theorem shape?_field (f : Field) : shape? f.group f.name = some f.shape := by
  cases f <;> decide

theorem group?_group (f : Field) : group? f.group = some f.group := by
  cases f <;> decide

theorem mem_of_denoted? {names : List String} {k n : String} (h : denoted? names k = some n) :
    n ∈ names := by
  unfold denoted? at h
  split_ifs at h with hk
  · cases h
    simpa using hk
  · exact List.mem_of_find?_eq_some h

theorem exists_field : ∀ group ∈ groups, ∀ name ∈ (fieldsOf group).map Prod.fst,
    ∃ f ∈ Field.all, (f.group == group && f.name == name) = true := by
  decide

/-- A known key denotes a group or a field. -/
theorem isSome_of_known {d : Toml.Document} {q : Toml.Path} (h : known d q = true) :
    (∃ g, q = [g] ∧ (group? g).isSome = true) ∨ (field? q).isSome = true := by
  unfold known at h
  split at h
  · next g =>
    rw [Bool.and_eq_true] at h
    exact .inl ⟨g, rfl, h.1⟩
  · next g k =>
    rw [Bool.and_eq_true] at h
    obtain ⟨s, hs⟩ := Option.isSome_iff_exists.mp h.1
    obtain ⟨group, hgroup, hshape⟩ := Option.bind_eq_some_iff.mp hs
    obtain ⟨name, hname, -⟩ := Option.bind_eq_some_iff.mp hshape
    have hfield := exists_field group (mem_of_denoted? hgroup) name (mem_of_denoted? hname)
    right
    simp only [field?, hgroup, hname, Option.bind_eq_bind, Option.bind_some, List.find?_isSome]
    exact hfield
  · cases h

theorem known_key {d : Toml.Document} {f : Field} (h : known d f.key = true) :
    (d.find? f.group f.name).isSome = true := by
  unfold Field.key known at h
  rw [Bool.and_eq_true] at h
  exact h.2

/-! ### Values and what they say -/

/-- What can be said about a field. -/
abbrev Field.Setting : Field → Type
  | target => Option Target
  | out => String
  | kernels => List String
  | _ => Int

/-- What a build file says about a field. -/
def Field.setting (c : BuildFile) : (f : Field) → f.Setting
  | target => c.target
  | out => c.out
  | jobs => c.jobs
  | kernels => c.kernels
  | maxInputs => c.device.maxInputs
  | maxBuffers => c.device.maxBuffers
  | maxBufferSize => c.device.maxBufferSize
  | tileX => c.params.tileX
  | tileY => c.params.tileY
  | unroll => c.params.unroll

/-- The string of a value. -/
def text? : Toml.Value → Option String
  | .string s => some s
  | _ => none

/-- The number of a value. -/
def whole? : Toml.Value → Option Int
  | .integer n => some n
  | _ => none

/-- The strings of a value. -/
def texts? : Toml.Value → Option (List String)
  | .array vs => vs.mapM text?
  | _ => none

/-- A kernel of the name is shipped. -/
def isShipped (name : String) : Bool := (Registry.shipped.find? name).isSome

/-- What a value says about a field, if it is accepted: a target has a name that can be read, with or
without blanks around it, the output directory is not blank, there is a job at least, and the kernels
are shipped. -/
def Field.meaning? (v : Toml.Value) : (f : Field) → Option f.Setting
  | target => (text? v).bind fun s => (Target.parse? (Text.trim s)).map some
  | out => (text? v).filter fun s => !(Text.trim s).isEmpty
  | jobs => (whole? v).filter fun n => 1 ≤ n
  | kernels => (texts? v).filter fun names => names.all isShipped
  | maxInputs | maxBuffers | maxBufferSize | tileX | tileY | unroll => whole? v

/-- The setting is the one under the very name of the field, or the default if there is none. -/
def Follows (d : Toml.Document) (f : Field) (s otherwise : f.Setting) : Prop :=
  (∀ v, d.find? f.group f.name = some v → f.meaning? v = some s) ∧
    (d.find? f.group f.name = none → s = otherwise)

variable {d : Toml.Document} {defaults c : BuildFile} {path text : String}

theorem accepts_of_fits (h : fits d = true) (f : Field) {v : Toml.Value}
    (hv : d.find? f.group f.name = some v) : f.shape.accepts v = true := by
  unfold Toml.Document.find? at hv
  split at hv
  · next t ht =>
    have hgroup := List.all_eq_true.mp h _ (Toml.Table.mem_of_find? ht)
    simp only [group?_group, Option.all_some, groupFits] at hgroup
    have hfield := List.all_eq_true.mp hgroup _ (Toml.Table.mem_of_find? hv)
    simpa only [shape?_field, Option.all_some] using hfield
  · cases hv

theorem mapM_text? {vs : List Toml.Value} (h : vs.all isText = true) :
    vs.mapM text? = some (texts vs) := by
  induction vs with
  | nil => rfl
  | cons v vs ih =>
    rw [List.all_cons, Bool.and_eq_true] at h
    cases v with
    | string s => simp [List.mapM_cons, text?, texts, ih h.2]
    | _ => cases h.1

/-! ### Reading a field -/

theorem readTarget_eq_ok (h : fits d = true) {t : Option Target} :
    readTarget d = .ok t ↔ Follows d .target t none := by
  have haccepts := fun v => accepts_of_fits h .target (v := v)
  unfold readTarget Follows
  simp only [Field.group, Field.name, Field.shape] at haccepts ⊢
  cases hv : d.find? "build" "target" with
  | none => simp [eq_comm]
  | some v =>
    cases v with
    | string s => cases hparse : Target.parse? (Text.trim s) <;> simp [Field.meaning?, text?, hparse]
    | _ => cases haccepts _ hv

theorem readOut_eq_ok (h : fits d = true) {s otherwise : String} :
    readOut d otherwise = .ok s ↔ Follows d .out s otherwise := by
  have haccepts := fun v => accepts_of_fits h .out (v := v)
  unfold readOut Follows
  simp only [Field.group, Field.name, Field.shape] at haccepts ⊢
  cases hv : d.find? "build" "out" with
  | none => simp [eq_comm]
  | some v =>
    cases v with
    | string w =>
      by_cases hblank : Text.trim w = ""
      · simpa [Field.meaning?, text?, hblank] using fun h => h ▸ hblank
      · simpa [Field.meaning?, text?, hblank] using fun h => h ▸ hblank
    | _ => cases haccepts _ hv

theorem readJobs_eq_ok (h : fits d = true) {n otherwise : Int} :
    readJobs d otherwise = .ok n ↔ Follows d .jobs n otherwise := by
  have haccepts := fun v => accepts_of_fits h .jobs (v := v)
  unfold readJobs Follows
  simp only [Field.group, Field.name, Field.shape] at haccepts ⊢
  cases hv : d.find? "build" "jobs" with
  | none => simp [eq_comm]
  | some v =>
    cases v with
    | integer m =>
      by_cases hlow : m < 1
      · simpa [Field.meaning?, whole?, hlow] using fun h => h ▸ hlow
      · simpa [Field.meaning?, whole?, hlow] using fun h => h ▸ not_lt.mp hlow
    | _ => cases haccepts _ hv

theorem readKernels_eq_ok (h : fits d = true) {names otherwise : List String} :
    readKernels d otherwise = .ok names ↔ Follows d .kernels names otherwise := by
  have haccepts := fun v => accepts_of_fits h .kernels (v := v)
  unfold readKernels Follows
  simp only [Field.group, Field.name, Field.shape] at haccepts ⊢
  cases hv : d.find? "build" "kernels" with
  | none => simp [eq_comm]
  | some v =>
    cases v with
    | array vs =>
      have htexts : texts? (.array vs) = some (texts vs) := mapM_text? (haccepts _ hv)
      cases hfind : (texts vs).find? fun name => (Registry.shipped.find? name).isNone with
      | none =>
        have hall : ∀ name ∈ texts vs, isShipped name = true := by
          intro name hname
          simpa [isShipped, Option.isSome_iff_ne_none] using List.find?_eq_none.mp hfind name hname
        simpa [Field.meaning?, htexts, hfind] using fun h => h ▸ hall
      | some name =>
        have hmissing : ∃ name ∈ texts vs, isShipped name = false := by
          refine ⟨name, List.mem_of_find?_eq_some hfind, ?_⟩
          simpa [isShipped] using List.find?_some hfind
        simpa [Field.meaning?, htexts, hfind] using fun h => h ▸ hmissing
    | _ => cases haccepts _ hv

theorem readInt_eq {group name : String} {n otherwise : Int}
    (haccepts : ∀ v, d.find? group name = some v → Shape.whole.accepts v = true) :
    readInt d group name otherwise = n ↔
      (∀ v, d.find? group name = some v → whole? v = some n) ∧
        (d.find? group name = none → n = otherwise) := by
  unfold readInt
  cases hv : d.find? group name with
  | none => simp [eq_comm]
  | some v =>
    cases v with
    | integer m => simp [whole?]
    | _ => cases haccepts _ hv

/-! ### Documents -/

variable {processors : Nat}

/-- The document is no contradiction to the fields: its values have their shapes and its keys are
known. -/
structure Admits (d : Toml.Document) : Prop where
  fits : fits d = true
  known : ∀ q ∈ d.keys, known d q = true

theorem ofDocument_eq (defaults : BuildFile) (path : String) (h : Admits d) :
    ofDocument defaults path d = do
      let target ← readTarget d
      let out ← readOut d defaults.out
      let jobs ← readJobs d defaults.jobs
      let kernels ← readKernels d defaults.kernels
      return { path, target, out, jobs, kernels, device := readDevice d defaults.device,
               params := readParams d defaults.params } := by
  have hkeys : d.keys.find? (fun key => !BuildFile.known d key) = none := by
    refine List.find?_eq_none.mpr fun q hq => ?_
    simp [h.known q hq]
  unfold ofDocument
  simp only [h.fits, Bool.not_true, Bool.false_eq_true, if_false, hkeys]

theorem admits_of_ok (h : ofDocument defaults path d = .ok c) : Admits d := by
  unfold ofDocument at h
  split_ifs at h with hfits
  split at h
  · cases h
  · next hkeys =>
    refine ⟨by simpa using hfits, fun q hq => ?_⟩
    simpa using List.find?_eq_none.mp hkeys q hq

/-- A document is accepted if the values of the fields are, and then every field follows it. -/
theorem ofDocument_eq_ok_iff : ofDocument (default processors) path d = .ok c ↔
    Admits d ∧ c.path = path ∧
      ∀ f : Field, Follows d f (f.setting c) (f.setting (default processors)) := by
  constructor
  · intro h
    have hadmits := admits_of_ok h
    rw [ofDocument_eq _ _ hadmits] at h
    obtain ⟨target, htarget, h⟩ := except_bind_eq_ok.mp h
    obtain ⟨out, hout, h⟩ := except_bind_eq_ok.mp h
    obtain ⟨jobs, hjobs, h⟩ := except_bind_eq_ok.mp h
    obtain ⟨kernels, hkernels, h⟩ := except_bind_eq_ok.mp h
    cases h
    refine ⟨hadmits, rfl, fun f => ?_⟩
    have hfits := hadmits.fits
    cases f with
    | target => exact (readTarget_eq_ok hfits).mp htarget
    | out => exact (readOut_eq_ok hfits).mp hout
    | jobs => exact (readJobs_eq_ok hfits).mp hjobs
    | kernels => exact (readKernels_eq_ok hfits).mp hkernels
    | maxInputs => exact (readInt_eq fun _ => accepts_of_fits hfits .maxInputs).mp rfl
    | maxBuffers => exact (readInt_eq fun _ => accepts_of_fits hfits .maxBuffers).mp rfl
    | maxBufferSize => exact (readInt_eq fun _ => accepts_of_fits hfits .maxBufferSize).mp rfl
    | tileX => exact (readInt_eq fun _ => accepts_of_fits hfits .tileX).mp rfl
    | tileY => exact (readInt_eq fun _ => accepts_of_fits hfits .tileY).mp rfl
    | unroll => exact (readInt_eq fun _ => accepts_of_fits hfits .unroll).mp rfl
  · rintro ⟨hadmits, rfl, hfollows⟩
    have hfits := hadmits.fits
    have hdevice : readDevice d (default processors).device = c.device := by
      unfold readDevice
      congr 1
      · exact (readInt_eq fun _ => accepts_of_fits hfits .maxInputs).mpr (hfollows .maxInputs)
      · exact (readInt_eq fun _ => accepts_of_fits hfits .maxBuffers).mpr (hfollows .maxBuffers)
      · exact (readInt_eq fun _ => accepts_of_fits hfits .maxBufferSize).mpr (hfollows .maxBufferSize)
    have hparams : readParams d (default processors).params = c.params := by
      unfold readParams
      congr 1
      · exact (readInt_eq fun _ => accepts_of_fits hfits .tileX).mpr (hfollows .tileX)
      · exact (readInt_eq fun _ => accepts_of_fits hfits .tileY).mpr (hfollows .tileY)
      · exact (readInt_eq fun _ => accepts_of_fits hfits .unroll).mpr (hfollows .unroll)
    have htarget : readTarget d = .ok c.target := (readTarget_eq_ok hfits).mpr (hfollows .target)
    have hout : readOut d (default processors).out = .ok c.out :=
      (readOut_eq_ok hfits).mpr (hfollows .out)
    have hjobs : readJobs d (default processors).jobs = .ok c.jobs :=
      (readJobs_eq_ok hfits).mpr (hfollows .jobs)
    have hkernels : readKernels d (default processors).kernels = .ok c.kernels :=
      (readKernels_eq_ok hfits).mpr (hfollows .kernels)
    rw [ofDocument_eq _ _ hadmits, htarget, hout, hjobs, hkernels, hdevice, hparams]
    rfl

/-- A document is accepted exactly if it admits the fields and the values under their very names say
something. -/
theorem ofDocument_isOk_iff (processors : Nat) (path : String) :
    (∃ c, ofDocument (default processors) path d = .ok c) ↔ Admits d ∧ ∀ (f : Field) (v : Toml.Value),
      d.find? f.group f.name = some v → (f.meaning? v).isSome = true := by
  constructor
  · rintro ⟨c, h⟩
    obtain ⟨hadmits, -, hfollows⟩ := ofDocument_eq_ok_iff.mp h
    refine ⟨hadmits, fun f v hv => ?_⟩
    rw [(hfollows f).1 v hv]
    rfl
  · rintro ⟨hadmits, hmeans⟩
    have hsettings : ∀ f : Field, ∃ s, Follows d f s (f.setting (default processors)) := by
      intro f
      cases hv : d.find? f.group f.name with
      | none => exact ⟨_, by simp [hv], fun _ => rfl⟩
      | some v =>
        obtain ⟨s, hs⟩ := Option.isSome_iff_exists.mp (hmeans f v hv)
        refine ⟨s, fun w hw => ?_, by simp [hv]⟩
        cases hv.symm.trans hw
        exact hs
    choose s hs using hsettings
    refine ⟨⟨path, s .target, s .out, s .jobs, s .kernels,
      ⟨s .maxInputs, s .maxBuffers, s .maxBufferSize⟩, ⟨s .tileX, s .tileY, s .unroll⟩⟩, ?_⟩
    refine ofDocument_eq_ok_iff.mpr ⟨hadmits, rfl, fun f => ?_⟩
    cases f <;> exact hs _

/-! ### Keys of a document -/

variable {decode : String → Option Toml.Document}

theorem length_of_known {q : Toml.Path} (h : known d q = true) : q.length ≤ 2 := by
  unfold known at h
  split at h
  · simp
  · simp
  · cases h

theorem isSome_find?_iff (hnames : Toml.NamesValues decode) (hd : decode text = some d) (h : Admits d)
    (f : Field) : (d.find? f.group f.name).isSome = true ↔ f.key ∈ d.keys := by
  constructor
  · intro hsome
    obtain ⟨v, hv⟩ := Option.isSome_iff_exists.mp hsome
    rcases hnames _ _ hd _ _ _ hv with hkey | ⟨q, hq, hlong⟩
    · exact hkey
    · have hshort := length_of_known (h.known q hq)
      omega
  · exact fun hkey => known_key (h.known _ hkey)

theorem parseWith_eq (hd : decode text = some d) (defaults : BuildFile) (path : String) :
    parseWith decode defaults path text = ofDocument defaults path d := by
  rw [parseWith, hd]

/-- **Only keys in their very spelling decide the fields.** Let a decoder name what it reads by keys.
In a document of it in which no two keys denote one field, take the keys that are spelled as their
fields are. The document is accepted exactly if its values have the shapes of the fields, all its keys
are known and the values under the keys so spelled mean something. Then every key denotes a group or a
field; a field whose key is there so spelled has the meaning of the value, and any other has its
default, even if a key in another spelling denotes it. -/
theorem exact_keys_decide_fields (hnames : Toml.NamesValues decode) (hd : decode text = some d)
    (hone : ∀ q ∈ d.keys, ∀ q' ∈ d.keys, (field? q).isSome = true → field? q = field? q' → q = q')
    (processors : Nat) (path : String) :
    ((∃ c, parseWith decode (default processors) path text = .ok c) ↔
      fits d = true ∧ (∀ q ∈ d.keys, known d q = true) ∧
        ∀ f : Field, f.key ∈ d.keys →
          ∃ v, d.find? f.group f.name = some v ∧ (f.meaning? v).isSome = true) ∧
    ∀ c, parseWith decode (default processors) path text = .ok c →
      c.path = path ∧
      (∀ q ∈ d.keys, (∃ g, q = [g] ∧ (group? g).isSome = true) ∨ (field? q).isSome = true) ∧
      (∀ f : Field, f.key ∈ d.keys →
        ∃ v, d.find? f.group f.name = some v ∧ f.meaning? v = some (f.setting c)) ∧
      (∀ f : Field, f.key ∉ d.keys → f.setting c = f.setting (default processors)) ∧
      ∀ q ∈ d.keys, ∀ f, field? q = some f → q ≠ f.key →
        f.setting c = f.setting (default processors) := by
  rw [parseWith_eq hd]
  refine ⟨(ofDocument_isOk_iff processors path).trans ⟨?_, ?_⟩, fun c hc => ?_⟩
  · rintro ⟨hadmits, hmeans⟩
    refine ⟨hadmits.fits, hadmits.known, fun f hkey => ?_⟩
    obtain ⟨v, hv⟩ := Option.isSome_iff_exists.mp ((isSome_find?_iff hnames hd hadmits f).mpr hkey)
    exact ⟨v, hv, hmeans f v hv⟩
  · rintro ⟨hfits, hknown, hmeans⟩
    refine ⟨⟨hfits, hknown⟩, fun f v hv => ?_⟩
    have hkey := (isSome_find?_iff hnames hd ⟨hfits, hknown⟩ f).mp (by simp [hv])
    obtain ⟨w, hw, hsome⟩ := hmeans f hkey
    cases hv.symm.trans hw
    exact hsome
  · obtain ⟨hadmits, hpath, hfollows⟩ := ofDocument_eq_ok_iff.mp hc
    have hmissing : ∀ f : Field, f.key ∉ d.keys → f.setting c = f.setting (default processors) := by
      intro f hkey
      have hnone := mt (isSome_find?_iff hnames hd hadmits f).mp hkey
      exact (hfollows f).2 (by simpa using hnone)
    refine ⟨hpath, fun q hq => isSome_of_known (hadmits.known q hq), fun f hkey => ?_, hmissing,
      fun q hq f hf hspelling => hmissing f fun hkey => ?_⟩
    · obtain ⟨v, hv⟩ := Option.isSome_iff_exists.mp ((isSome_find?_iff hnames hd hadmits f).mpr hkey)
      exact ⟨v, hv, (hfollows f).1 v hv⟩
    · exact hspelling (hone q hq _ hkey (by simp [hf]) (by rw [hf, field?_key]))

/-- The premises can be met: the number of jobs is set, the unrolling is not, as its key begins with a
capital. -/
theorem build_file_of_two_spellings :
    ∃ c, parse (default 4) fileName "[build]\njobs = 3\n[params]\nUnroll = 7\n" = .ok c ∧
      c.jobs = 3 ∧ c.params.unroll = 1 := by
  have hread : (Toml.Document.parse? "[build]\njobs = 3\n[params]\nUnroll = 7\n").map
      (fun d => (d.keys, fits d, d.keys.all (known d), (d.find? "build" "jobs").bind whole?)) =
      some ([["build"], ["build", "jobs"], ["params"], ["params", "Unroll"]], true, true, some 3) := by
    decide +kernel
  obtain ⟨d, hd, hfacts⟩ := Option.map_eq_some_iff.mp hread
  obtain ⟨hkeys, hfits, hknown, hthree⟩ : d.keys = _ ∧ fits d = true ∧ d.keys.all (known d) = true ∧
    (d.find? "build" "jobs").bind whole? = some 3 := by simpa using hfacts
  obtain ⟨v, hv, hwhole⟩ := Option.bind_eq_some_iff.mp hthree
  have hone : ∀ q ∈ d.keys, ∀ q' ∈ d.keys, (field? q).isSome = true → field? q = field? q' →
      q = q' := by
    rw [hkeys]
    decide
  have hjobs : ∀ f : Field, f.key ∈ d.keys → f = .jobs := by
    intro f
    rw [hkeys]
    cases f <;> decide
  have hmeaning : Field.meaning? v .jobs = some 3 := by
    rw [Field.meaning?, hwhole]
    rfl
  obtain ⟨haccepted, hfields⟩ := exact_keys_decide_fields Toml.Document.namesValues_parse? hd hone 4
    fileName
  obtain ⟨c, hc⟩ := haccepted.mpr ⟨hfits, List.all_eq_true.mp hknown, fun f hf => by
    obtain rfl := hjobs f hf
    exact ⟨v, hv, by rw [hmeaning]; rfl⟩⟩
  obtain ⟨-, -, hset, hkept, -⟩ := hfields c hc
  obtain ⟨w, hw, hmeans⟩ := hset .jobs (by rw [hkeys]; decide)
  cases hv.symm.trans hw
  have hunroll := hkept .unroll (by rw [hkeys]; decide)
  exact ⟨c, hc, (Option.some.inj (hmeaning.symm.trans hmeans)).symm, hunroll⟩

/-- A key that begins with a capital is accepted, and what it says is ignored. -/
theorem respelled_key_ignored :
    ∃ d, Toml.Document.parse? "[build]\nJobs = 3\n" = some d ∧ d.keys = [["build"], ["build", "Jobs"]] ∧
      field? ["build", "Jobs"] = some .jobs ∧ d.find? "build" "Jobs" = some (.integer 3) ∧
      ∃ c, parse (default 4) fileName "[build]\nJobs = 3\n" = .ok c ∧ c.jobs = 4 := by
  have hread : (Toml.Document.parse? "[build]\nJobs = 3\n").map
      (fun d => (d.keys, (d.find? "build" "Jobs").bind whole?)) =
      some ([["build"], ["build", "Jobs"]], some 3) := by
    decide +kernel
  have hjobs : (parse (default 4) fileName "[build]\nJobs = 3\n").toOption.map BuildFile.jobs =
      some 4 := by
    decide +kernel
  obtain ⟨d, hd, hfacts⟩ := Option.map_eq_some_iff.mp hread
  obtain ⟨hkeys, hthree⟩ := Prod.mk.inj hfacts
  obtain ⟨v, hv, hwhole⟩ := Option.bind_eq_some_iff.mp hthree
  have hinteger : v = .integer 3 := by
    cases v with
    | integer n =>
      cases hwhole
      rfl
    | _ => cases hwhole
  obtain ⟨c, hc, hfour⟩ := Option.map_eq_some_iff.mp hjobs
  refine ⟨d, hd, hkeys, by decide, hinteger ▸ hv, c, ?_, hfour⟩
  cases hparse : parse (default 4) fileName "[build]\nJobs = 3\n" with
  | error e =>
    rw [hparse] at hc
    cases hc
  | ok c' =>
    rw [hparse] at hc
    cases hc
    rfl

end ShaderIL.BuildFile
