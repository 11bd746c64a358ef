import Mathlib.Tactic
import ShaderIL.Cache.Key
import ShaderIL.Proofs.Text.Lines

/-!
# Keys tell builds apart

A build is digested as a message in which its parts are separated by the zero byte, so the message
shows the build (`RawBuild.message_injective`) as long as no part holds that byte; the texts of a build
need not be well-formed for it. The name of an entry's file shows the key: each word of a digest is
written in eight digits of base sixteen, and the digits give the word back
(`Sha256.State.fileName_injective`). What is left between a build and the name of its file is the
digest: builds that differ have one key only if their messages collide
(`RawBuild.key_eq_iff_same_or_collision`).
-/

namespace ShaderIL

/-! ### Texts put together -/

/-- Lists without the separator are shown by the list they are put together to. -/
theorem parts_eq_of_intercalate_eq {α : Type} [BEq α] [LawfulBEq α] {x : α} {ls ms : List (List α)}
    (hls : ∀ l ∈ ls, x ∉ l) (hms : ∀ m ∈ ms, x ∉ m) (hl : ls ≠ []) (hm : ms ≠ [])
    (h : [x].intercalate ls = [x].intercalate ms) : ls = ms := by
  rw [← List.splitOn_intercalate x hls hl, h, List.splitOn_intercalate x hms hm]

namespace Text

variable {c : Char} {s : String} {ls ms : List String}

/-- Texts without the separator are shown by the text they are put together to. -/
theorem intercalate_injective (hls : ∀ l ∈ ls, c ∉ l.toList) (hms : ∀ m ∈ ms, c ∉ m.toList)
    (hl : ls ≠ []) (hm : ms ≠ [])
    (h : (String.singleton c).intercalate ls = (String.singleton c).intercalate ms) : ls = ms := by
  rw [← String.toList_inj, String.toList_intercalate, String.toList_intercalate,
    String.toList_singleton] at h
  have hmap : ls.map String.toList = ms.map String.toList :=
    parts_eq_of_intercalate_eq (by simpa using hls) (by simpa using hms) (by simpa using hl)
      (by simpa using hm) h
  exact List.map_injective_iff.mpr (fun _ _ => String.toList_inj.mp) hmap

theorem bytes_append (s t : String) : bytes (s ++ t) = bytes s ++ bytes t := by
  rw [bytes, String.toList_append, List.flatMap_append, bytes, bytes]

theorem bytes_intercalate (s : String) (ls : List String) :
    bytes (s.intercalate ls) = (bytes s).intercalate (ls.map bytes) := by
  induction ls with
  | nil => rfl
  | cons l ls ih =>
    cases ls with
    | nil => simp
    | cons m ms =>
      rw [String.intercalate_cons_cons, bytes_append, bytes_append, ih, List.map_cons, List.map_cons,
        List.map_cons, List.intercalate_cons_cons]

/-- Only the zero character has a zero among its bytes. -/
theorem eq_zero_of_zero_mem_utf8EncodeChar (h : 0 ∈ String.utf8EncodeChar c) : c = Char.ofNat 0 := by
  have hmarked : ∀ b k : UInt8, k ≠ 0 → 0 ≠ b ||| k := by
    intro b k hk hzero
    exact hk (UInt8.or_eq_zero_iff.mp hzero.symm).2
  rcases Char.utf8Size_eq c with hsize | hsize | hsize | hsize
  · rw [String.utf8EncodeChar_eq_singleton hsize, List.mem_singleton] at h
    have hlow : c.val.toNat ≤ 127 := UInt32.le_iff_toNat_le.mp (Char.utf8Size_eq_one_iff.mp hsize)
    have hmod : c.val.toNat % 256 = 0 := by
      rw [← UInt32.toNat_toUInt8, ← h]
      rfl
    have hval : c.val.toNat = 0 := by omega
    exact Char.ext (UInt32.toNat_inj.mp hval)
  -- every byte of a longer form carries a mark
  · rw [String.utf8EncodeChar_eq_cons_cons hsize] at h
    simp [hmarked] at h
  · rw [String.utf8EncodeChar_eq_cons_cons_cons hsize] at h
    simp [hmarked] at h
  · rw [String.utf8EncodeChar_eq_cons_cons_cons_cons hsize] at h
    simp [hmarked] at h

theorem zero_not_mem_bytes (h : Char.ofNat 0 ∉ s.toList) : 0 ∉ bytes s := by
  intro hzero
  obtain ⟨c, hc, hmem⟩ := List.mem_flatMap.mp hzero
  exact h (eq_zero_of_zero_mem_utf8EncodeChar hmem ▸ hc)

/-! ### Base sixteen -/

/-- The value of a digit of base sixteen in lower case. -/
def hexDigit (c : Char) : Nat := if c.isDigit then c.toNat - 48 else c.toNat - 87

/-- The number that digits of base sixteen write. -/
def hexValue (cs : List Char) : Nat := cs.foldl (fun n c => 16 * n + hexDigit c) 0

theorem hexDigit_digitChar : ∀ d < 16, hexDigit (Nat.digitChar d) = d := by decide

theorem hexValue_append_singleton (cs : List Char) (c : Char) :
    hexValue (cs ++ [c]) = 16 * hexValue cs + hexDigit c := by
  simp [hexValue]

theorem hexValue_toDigits (n : Nat) : hexValue (Nat.toDigits 16 n) = n := by
  induction n using Nat.strong_induction_on with
  | _ n ih =>
    rw [Nat.toDigits_eq_if (by decide)]
    split_ifs with hn
    · simpa [hexValue] using hexDigit_digitChar n hn
    · rw [hexValue_append_singleton, ih (n / 16) (by omega),
        hexDigit_digitChar (n % 16) (by omega)]
      omega

theorem hexValue_hex (width n : Nat) : hexValue (hex width n).toList = n := by
  have hzeros : ∀ k, (List.replicate k '0').foldl (fun n c => 16 * n + hexDigit c) 0 = 0 := by
    intro k
    induction k with
    | zero => rfl
    | succ k ih => simpa [List.replicate_succ, hexDigit] using ih
  rw [hex, String.toList_ofList, hexValue, List.foldl_append, hzeros]
  exact hexValue_toDigits n

theorem hex_injective {width m n : Nat} (h : hex width m = hex width n) : m = n := by
  rw [← hexValue_hex width m, h, hexValue_hex]

theorem length_hex_word (w : UInt32) : (hex 8 w.toNat).toList.length = 8 := by
  have hdigits : (Nat.toDigits 16 w.toNat).length ≤ 8 :=
    Nat.toDigits_length 16 w.toNat 8 (by decide) w.toNat_lt
  rw [hex, String.toList_ofList, List.length_append, List.length_replicate]
  omega

theorem mem_toDigits_sixteen {n : Nat} {c : Char} (h : c ∈ Nat.toDigits 16 n) :
    ∃ d < 16, c = Nat.digitChar d := by
  induction n using Nat.strong_induction_on with
  | _ n ih =>
    rw [Nat.toDigits_eq_if (by decide)] at h
    split_ifs at h with hn
    · exact ⟨n, hn, by simpa using h⟩
    · rcases List.mem_append.mp h with h | h
      · exact ih (n / 16) (by omega) h
      · exact ⟨n % 16, by omega, by simpa using h⟩

theorem mem_hex {width n : Nat} {c : Char} (h : c ∈ (hex width n).toList) :
    ∃ d < 16, c = Nat.digitChar d := by
  rw [hex, String.toList_ofList] at h
  rcases List.mem_append.mp h with h | h
  · exact ⟨0, by decide, List.eq_of_mem_replicate h⟩
  · exact mem_toDigits_sixteen h

end Text

/-! ### The file of a key -/

/-- Blocks of one length, each of which shows what it was made from, can be told apart in a row. -/
theorem flatMap_injective {α β : Type} {f : α → List β} {n : Nat} (hf : Function.Injective f)
    (hn : ∀ a, (f a).length = n) {as bs : List α} (hlen : as.length = bs.length)
    (h : as.flatMap f = bs.flatMap f) : as = bs := by
  induction as generalizing bs with
  | nil => exact (List.length_eq_zero_iff.mp hlen.symm).symm
  | cons a as ih =>
    rcases bs with _ | ⟨b, bs⟩
    · cases hlen
    · rw [List.flatMap_cons, List.flatMap_cons] at h
      obtain ⟨hab, hrest⟩ := List.append_inj h (by rw [hn, hn])
      rw [hf hab, ih (by simpa using hlen) hrest]

namespace Sha256.State

theorem toList_text (k : Key) :
    k.text.toList = k.toList.flatMap fun w => (Text.hex 8 w.toNat).toList := by
  rw [text, String.toList_join, List.flatMap, List.map_map]
  rfl

theorem text_injective {k l : Key} (h : k.text = l.text) : k = l := by
  have hwords : k.toList = l.toList := by
    refine flatMap_injective ?_ Text.length_hex_word rfl ?_
    · intro v w hvw
      exact UInt32.toNat_inj.mp (Text.hex_injective (String.toList_inj.mp hvw))
    · rw [← toList_text, ← toList_text, h]
  cases k
  cases l
  simpa [toList] using hwords

theorem fileName_injective {k l : Key} (h : k.fileName = l.fileName) : k = l := by
  have htext : k.text.toList ++ ".mp.xz".toList = l.text.toList ++ ".mp.xz".toList := by
    rw [← String.toList_append, ← String.toList_append]
    exact congrArg String.toList h
  exact text_injective (String.toList_inj.mp (List.append_cancel_right htext))

theorem mem_fileName {k : Key} {c : Char} (h : c ∈ k.fileName.toList) :
    (∃ d < 16, c = Nat.digitChar d) ∨ c ∈ ".mp.xz".toList := by
  rw [fileName, String.toList_append, List.mem_append, toList_text] at h
  refine h.imp_left fun h => ?_
  obtain ⟨w, -, hw⟩ := List.mem_flatMap.mp h
  exact Text.mem_hex hw

theorem length_fileName (k : Key) : k.fileName.toList.length = 70 := by
  simp [fileName, toList_text, toList, Text.length_hex_word]

theorem utf8ByteSize_fileName (k : Key) : k.fileName.utf8ByteSize = 70 := by
  have hdigit : ∀ d < 16, (Nat.digitChar d).utf8Size = 1 := by decide
  have hending : ∀ c ∈ ['.', 'm', 'p', '.', 'x', 'z'], c.utf8Size = 1 := by
    intro c hc
    simp only [List.mem_cons, List.not_mem_nil, or_false] at hc
    rcases hc with rfl | rfl | rfl | rfl | rfl | rfl <;> rfl
  have hone : ∀ c ∈ k.fileName.toList, c.utf8Size = 1 := by
    intro c hc
    rcases mem_fileName hc with ⟨d, hd, rfl⟩ | hc
    · exact hdigit d hd
    · exact hending c hc
  have hsize : ∀ cs : List Char, (∀ c ∈ cs, c.utf8Size = 1) →
      (String.ofList cs).utf8ByteSize = cs.length := by
    intro cs
    induction cs with
    | nil => intro _; rfl
    | cons c cs ih =>
      intro hcs
      have hcons : String.ofList (c :: cs) = String.singleton c ++ String.ofList cs := by
        rw [← String.toList_inj]
        simp
      rw [hcons, String.utf8ByteSize_append, String.utf8ByteSize_singleton,
        ih fun c hc => hcs c (List.mem_cons_of_mem _ hc), hcs c List.mem_cons_self,
        List.length_cons, Nat.add_comm]
  rw [← length_fileName k, ← hsize _ hone, String.ofList_toList]

end Sha256.State

/-! ### The message of a build -/

/-- The parts of a build can be told apart: no text holds the separator, and the target is the one of
its code. -/
structure BuildId.Separable (b : BuildId) : Prop where
  version : Char.ofNat 0 ∉ b.version.toList
  kernel : Char.ofNat 0 ∉ b.kernel.toList
  target : Target.ofCode b.target.code = b.target

namespace BuildId

theorem commas_injective {a b c x y z : Int}
    (h : ",".intercalate [toString a, toString b, toString c] =
      ",".intercalate [toString x, toString y, toString z]) : a = x ∧ b = y ∧ c = z := by
  have hcomma : ∀ n : Int, ',' ∉ (toString n).toList := Text.not_mem_toString_int (by decide)
  have hfree : ∀ i j k : Int, ∀ l ∈ [toString i, toString j, toString k], ',' ∉ l.toList := by
    intro i j k l hl
    simp only [List.mem_cons, List.not_mem_nil, or_false] at hl
    rcases hl with rfl | rfl | rfl <;> exact hcomma _
  have hparts := Text.intercalate_injective (hfree a b c) (hfree x y z) (List.cons_ne_nil _ _)
    (List.cons_ne_nil _ _) h
  simp only [List.cons.injEq, and_true] at hparts
  exact hparts.imp Text.toString_int_injective
    (And.imp Text.toString_int_injective Text.toString_int_injective)

theorem deviceText_injective {d e : Device} (h : deviceText d = deviceText e) : d = e := by
  have hfields := commas_injective h
  rcases d with ⟨_, _, _⟩
  rcases e with ⟨_, _, _⟩
  rwa [Device.mk.injEq]

theorem paramsText_injective {p q : Params} (h : paramsText p = paramsText q) : p = q := by
  have hfields := commas_injective h
  rcases p with ⟨_, _, _⟩
  rcases q with ⟨_, _, _⟩
  rwa [Params.mk.injEq]

theorem separator_not_mem_commas (a b c : Int) :
    Char.ofNat 0 ∉ (",".intercalate [toString a, toString b, toString c]).toList := by
  have hzero : ∀ n : Int, Char.ofNat 0 ∉ (toString n).toList :=
    Text.not_mem_toString_int (by decide)
  have hcomma : Char.ofNat 0 ∉ ",".toList := by decide
  rw [String.intercalate_cons_cons, String.intercalate_cons_cons, String.intercalate_singleton]
  simp only [String.toList_append, List.mem_append, not_or]
  exact ⟨⟨hzero a, hcomma⟩, ⟨hzero b, hcomma⟩, hzero c⟩

end BuildId

/-- What a key is made from, with texts of any bytes, well-formed or not, and the target by its code. -/
structure RawBuild where
  version : List UInt8
  kernel : List UInt8
  target : Nat
  device : Device
  params : Params

namespace RawBuild

/-- No text holds the zero byte. -/
structure Separable (r : RawBuild) : Prop where
  version : 0 ∉ r.version
  kernel : 0 ∉ r.kernel

/-- The parts of a build in bytes. -/
def parts (r : RawBuild) : List (List UInt8) :=
  [r.version, r.kernel, Text.bytes (toString r.target), Text.bytes (BuildId.deviceText r.device),
    Text.bytes (BuildId.paramsText r.params)]

/-- The bytes that are digested. -/
def message (r : RawBuild) : List UInt8 := [0].intercalate r.parts

/-- The key of a build. -/
def key (r : RawBuild) : Key := Sha256.digest r.message

variable {r s : RawBuild}

theorem Separable.zero_not_mem (h : r.Separable) : ∀ l ∈ r.parts, 0 ∉ l := by
  intro l hl
  simp only [parts, List.mem_cons, List.not_mem_nil, or_false] at hl
  rcases hl with rfl | rfl | rfl | rfl | rfl
  · exact h.version
  · exact h.kernel
  · exact Text.zero_not_mem_bytes (Text.not_mem_toString_nat (by decide) _)
  · exact Text.zero_not_mem_bytes (BuildId.separator_not_mem_commas _ _ _)
  · exact Text.zero_not_mem_bytes (BuildId.separator_not_mem_commas _ _ _)

theorem parts_injective (h : r.parts = s.parts) : r = s := by
  simp only [parts, List.cons.injEq, and_true] at h
  obtain ⟨hversion, hkernel, hcode, hdevice, hparams⟩ := h
  rcases r with ⟨_, _, _, _, _⟩
  rcases s with ⟨_, _, _, _, _⟩
  rw [RawBuild.mk.injEq]
  exact ⟨hversion, hkernel, Text.toString_nat_injective (Text.bytes_injective hcode),
    BuildId.deviceText_injective (Text.bytes_injective hdevice),
    BuildId.paramsText_injective (Text.bytes_injective hparams)⟩

/-- The digested bytes show the build. -/
theorem message_injective (hr : r.Separable) (hs : s.Separable) (h : r.message = s.message) :
    r = s := by
  have hparts : r.parts = s.parts :=
    parts_eq_of_intercalate_eq hr.zero_not_mem hs.zero_not_mem (List.cons_ne_nil _ _)
      (List.cons_ne_nil _ _) h
  exact parts_injective hparts

end RawBuild

namespace BuildId

variable {b c : BuildId}

/-- A build with its texts in bytes and its target by its code. -/
def raw (b : BuildId) : RawBuild :=
  ⟨Text.bytes b.version, Text.bytes b.kernel, b.target.code, b.device, b.params⟩

theorem Separable.raw (h : b.Separable) : b.raw.Separable :=
  ⟨Text.zero_not_mem_bytes h.version, Text.zero_not_mem_bytes h.kernel⟩

theorem raw_inj (hb : b.Separable) (hc : c.Separable) : b.raw = c.raw ↔ b = c := by
  refine ⟨fun h => ?_, congrArg BuildId.raw⟩
  rw [BuildId.raw, BuildId.raw, RawBuild.mk.injEq] at h
  obtain ⟨hversion, hkernel, hcode, hdevice, hparams⟩ := h
  have htarget : b.target = c.target := by rw [← hb.target, hcode, hc.target]
  rcases b with ⟨_, _, _, _, _⟩
  rcases c with ⟨_, _, _, _, _⟩
  rw [BuildId.mk.injEq]
  exact ⟨Text.bytes_injective hversion, Text.bytes_injective hkernel, htarget, hdevice, hparams⟩

theorem bytes_encoding (b : BuildId) : Text.bytes b.encoding = b.raw.message := by
  rw [encoding, Text.bytes_intercalate]
  rfl

theorem key_eq_raw (b : BuildId) : b.key = b.raw.key := by
  rw [key, bytes_encoding, RawBuild.key]

theorem encoding_injective (hb : b.Separable) (hc : c.Separable) (h : b.encoding = c.encoding) :
    b = c := by
  have hmessage : b.raw.message = c.raw.message := by
    rw [← bytes_encoding, ← bytes_encoding, h]
  exact (raw_inj hb hc).mp (RawBuild.message_injective hb.raw hc.raw hmessage)

end BuildId

/-! ### Collisions -/

/-- Two messages that their digests do not tell apart. -/
def Sha256.Collision (m n : List UInt8) : Prop := m ≠ n ∧ digest m = digest n

/-- **A key shows its build, up to a collision.** Builds without a zero byte in their texts have one
message only if they agree in every part, and one key only if they agree in every part or their
messages collide. The third part says it of the builds whose texts are well-formed, in terms of the
text that is digested for them. -/
theorem RawBuild.key_eq_iff_same_or_collision {r s : RawBuild} (hr : r.Separable)
    (hs : s.Separable) :
    (r.message = s.message ↔ r = s) ∧
      (r.key = s.key ↔ r = s ∨ Sha256.Collision r.message s.message) ∧
      ∀ b c : BuildId, b.Separable → c.Separable → b.raw = r → c.raw = s →
        (Text.bytes b.encoding = Text.bytes c.encoding ↔ b = c) ∧
          (b.key = c.key ↔
            b = c ∨ Sha256.Collision (Text.bytes b.encoding) (Text.bytes c.encoding)) := by
  have hmessage : r.message = s.message ↔ r = s := ⟨message_injective hr hs, congrArg message⟩
  have hkey : r.key = s.key ↔ r = s ∨ Sha256.Collision r.message s.message := by
    constructor
    · intro hdigest
      by_cases hsame : r.message = s.message
      · exact .inl (hmessage.mp hsame)
      · exact .inr ⟨hsame, hdigest⟩
    · rintro (rfl | ⟨-, hdigest⟩)
      · rfl
      · exact hdigest
  refine ⟨hmessage, hkey, ?_⟩
  rintro b c hb hc rfl rfl
  rw [BuildId.bytes_encoding, BuildId.bytes_encoding, BuildId.key_eq_raw, BuildId.key_eq_raw,
    ← BuildId.raw_inj hb hc]
  exact ⟨hmessage, hkey⟩

/-- Written without separators these two builds would read the same, and their limits too. -/
theorem RawBuild.key_of_shifted_parts :
    let b : BuildId := ⟨"1", "é1", .pixel, ⟨-1, 12, 3⟩,
      ⟨9223372036854775807, -9223372036854775808, 1⟩⟩
    let c : BuildId := ⟨"1é", "", .other 10, ⟨-11, 2, 3⟩,
      ⟨9223372036854775807, -9223372036854775808, 1⟩⟩
    b.raw.Separable ∧ c.raw.Separable ∧ b.raw.message ≠ c.raw.message ∧
      (b.raw.key = c.raw.key → Sha256.Collision b.raw.message c.raw.message) ∧
      Text.bytes b.encoding ≠ Text.bytes c.encoding ∧
      (b.key = c.key → Sha256.Collision (Text.bytes b.encoding) (Text.bytes c.encoding)) := by
  intro b c
  have hb : b.Separable := ⟨by decide, by decide, rfl⟩
  have hc : c.Separable := ⟨by decide, by decide, rfl⟩
  have hne : b ≠ c := by decide
  have hraw : b.raw ≠ c.raw := fun h => hne ((BuildId.raw_inj hb hc).mp h)
  obtain ⟨hmessage, hkey, hbuilds⟩ := RawBuild.key_eq_iff_same_or_collision hb.raw hc.raw
  obtain ⟨hbytes, hdigest⟩ := hbuilds b c hb hc rfl rfl
  exact ⟨hb.raw, hc.raw, mt hmessage.mp hraw, fun h => (hkey.mp h).resolve_left hraw,
    mt hbytes.mp hne, fun h => (hdigest.mp h).resolve_left hne⟩

end ShaderIL
