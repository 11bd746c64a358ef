import ShaderIL.BuildFile
import ShaderIL.Files.Nearest
import ShaderIL.Proofs.Files.Tree

/-!
# The nearest build file

The directories above an absolute path are found in its text: `Path.parentText` cuts a text at its last
slash. Cutting comes to the root after as many steps as the path has names, each text being shorter than
the one before (`Path.iterate_parentText`). The search asks for one file in each of these directories,
from the innermost on, and ends with the first that is not missing (`nearestFrom_run`).
-/

namespace ShaderIL

namespace Path

/-! ### Texts of absolute paths -/

/-- The directory above an absolute path: what stands before the last slash, or the root. -/
def parentText (s : String) : String :=
  let front := (s.toList.reverse.dropWhile (· != '/')).tail.reverse
  if front.isEmpty then "/" else String.ofList front

/-- The text of a file in the directory of an absolute path. -/
def fileText (directory name : String) : String :=
  if directory = "/" then "/" ++ name else directory ++ "/" ++ name

/-- Something that can stand between two slashes. -/
structure Segment (name : String) : Prop where
  ne_empty : name ≠ ""
  noSlash : '/' ∉ name.toList

theorem parentText_root : parentText "/" = "/" := by decide

theorem noSlash_of_mem_splitFrom {piece cs : List Char} (hpiece : '/' ∉ piece) :
    ∀ q ∈ splitFrom piece cs, '/' ∉ q.toList := by
  induction cs generalizing piece with
  | nil => simpa [splitFrom] using hpiece
  | cons c cs ih =>
    by_cases hc : c = '/'
    · have hempty : '/' ∉ ([] : List Char) := by simp
      simpa [splitFrom, hc, hpiece] using ih hempty
    · have hlonger : '/' ∉ c :: piece := by simp [hpiece, Ne.symm hc]
      simpa [splitFrom, hc] using ih hlonger

/-- A name leads to a path that begins the one before it, or follows it. -/
theorem push_cases (p : Path) (name : String) : ∃ ns, p.push name = { p with names := ns } ∧
    (ns <+: p.names ∨ (name ≠ "" ∧ ns = p.names ++ [name])) := by
  unfold push
  by_cases hsame : (name.isEmpty || name == ".") = true
  · exact ⟨p.names, if_pos hsame, .inl (List.prefix_refl _)⟩
  rw [if_neg hsame]
  have hne : name ≠ "" := by
    rintro rfl
    exact hsame rfl
  by_cases hup : (name == "..") = true
  · rw [if_pos hup]
    rcases hlast : p.names.getLast? with _ | last
    · have hnil : p.names = [] := List.getLast?_eq_none_iff.mp hlast
      split_ifs
      · exact ⟨p.names, rfl, .inl (List.prefix_refl _)⟩
      · exact ⟨[name], rfl, .inr ⟨hne, by rw [hnil, List.nil_append]⟩⟩
    · by_cases hups : (last == "..") = true
      · exact ⟨_, if_pos hups, .inr ⟨hne, rfl⟩⟩
      · exact ⟨_, if_neg hups, .inl (List.dropLast_prefix _)⟩
  · exact ⟨_, if_neg hup, .inr ⟨hne, rfl⟩⟩

/-- The path of a text consists of segments, and it starts at the root if the text does. -/
theorem ofText_segments (s : String) :
    (ofText s).rooted = isRooted s ∧ ∀ n ∈ (ofText s).names, Segment n := by
  have hpieces : ∀ q ∈ pieces s, '/' ∉ q.toList := noSlash_of_mem_splitFrom (by simp)
  have hfold : ∀ (qs : List String) (p : Path), (∀ q ∈ qs, '/' ∉ q.toList) →
      (∀ n ∈ p.names, Segment n) →
      (qs.foldl push p).rooted = p.rooted ∧ ∀ n ∈ (qs.foldl push p).names, Segment n := by
    intro qs
    induction qs with
    | nil => exact fun p _ hp => ⟨rfl, hp⟩
    | cons q qs ih =>
      intro p hqs hp
      obtain ⟨ns, hpush, hns⟩ := push_cases p q
      rw [List.foldl_cons, hpush]
      refine ih _ (fun r hr => hqs r (List.mem_cons_of_mem _ hr)) fun n hn => ?_
      rcases hns with hns | ⟨hne, rfl⟩
      · exact hp n (hns.subset hn)
      · rcases List.mem_append.mp hn with hn | hn
        · exact hp n hn
        · rw [List.mem_singleton.mp hn]
          exact ⟨hne, hqs q List.mem_cons_self⟩
  exact hfold (pieces s) _ hpieces (by simp)

theorem toList_fileText (directory name : String) : (fileText directory name).toList =
    (if directory = "/" then [] else directory.toList) ++ '/' :: name.toList := by
  unfold fileText
  split_ifs <;> simp

theorem parentText_fileText {directory name : String} (hd : directory ≠ "") (hn : '/' ∉ name.toList) :
    parentText (fileText directory name) = directory := by
  have hcut : ∀ u v : List Char, '/' ∉ v →
      ((u ++ '/' :: v).reverse.dropWhile (· != '/')).tail.reverse = u := by
    intro u v hv
    have hkeep : ∀ c ∈ v.reverse, (c != '/') = true := by
      intro c hc
      rw [bne_iff_ne]
      rintro rfl
      exact hv (List.mem_reverse.mp hc)
    rw [List.reverse_append, List.reverse_cons, List.append_assoc, List.dropWhile_append_of_pos hkeep]
    simp
  unfold parentText
  rw [toList_fileText, hcut _ _ hn]
  by_cases hroot : directory = "/"
  · simp [hroot]
  · simp [hroot, hd]

theorem length_lt_fileText {directory name : String} (hn : name ≠ "") :
    directory.length < (fileText directory name).length := by
  have hpos : 0 < name.toList.length :=
    List.length_pos_iff.mpr fun h => hn (String.toList_eq_nil_iff.mp h)
  rw [← String.length_toList, ← String.length_toList, toList_fileText]
  split_ifs with hroot
  · rw [hroot]
    simpa using hpos
  · simp

theorem text_ne_empty (ns : List String) : (⟨true, ns⟩ : Path).text ≠ "" := by
  simp [text]

theorem text_eq_root_iff {ns : List String} (hns : ∀ n ∈ ns, Segment n) :
    (⟨true, ns⟩ : Path).text = "/" ↔ ns = [] := by
  refine ⟨fun h => ?_, fun h => by rw [h]; rfl⟩
  rcases ns with _ | ⟨n, ns⟩
  · rfl
  · have hempty : "/".intercalate (n :: ns) = "" := by simpa [text] using h
    have hn := (hns n List.mem_cons_self).ne_empty
    cases ns <;> simp_all

theorem text_snoc {ns : List String} (hns : ∀ n ∈ ns, Segment n) (name : String) :
    (⟨true, ns ++ [name]⟩ : Path).text = fileText (⟨true, ns⟩ : Path).text name := by
  unfold fileText
  by_cases hnil : ns = []
  · rw [if_pos ((text_eq_root_iff hns).mpr hnil), hnil]
    simp [text]
  · rw [if_neg fun h => hnil ((text_eq_root_iff hns).mp h)]
    simp [text, String.intercalate_append_of_ne_nil hnil (List.cons_ne_nil _ _),
      String.append_assoc]

/-- Cutting an absolute path again and again leads through the paths of fewer and fewer names. -/
theorem iterate_parentText {ns : List String} (hns : ∀ n ∈ ns, Segment n) {k : Nat}
    (hk : k ≤ ns.length) : parentText^[k] (⟨true, ns⟩ : Path).text =
      (⟨true, ns.take (ns.length - k)⟩ : Path).text := by
  induction k with
  | zero => simp
  | succ k ih =>
    have hlt : ns.length - (k + 1) < ns.length := by omega
    have hsucc : ns.length - k = ns.length - (k + 1) + 1 := by omega
    have htake : ∀ n ∈ ns.take (ns.length - (k + 1)), Segment n :=
      fun n hn => hns n (List.mem_of_mem_take hn)
    rw [Function.iterate_succ_apply', ih (by omega), hsucc, List.take_succ_eq_append_getElem hlt,
      text_snoc htake, parentText_fileText (text_ne_empty _) (hns _ (List.getElem_mem hlt)).noSlash]

/-- Every cut before the root shortens the text. -/
theorem length_iterate_parentText {ns : List String} (hns : ∀ n ∈ ns, Segment n) {j k : Nat}
    (hjk : j < k) (hk : k ≤ ns.length) : (parentText^[k] (⟨true, ns⟩ : Path).text).length <
      (parentText^[j] (⟨true, ns⟩ : Path).text).length := by
  have hstep : ∀ i < ns.length, (parentText^[i + 1] (⟨true, ns⟩ : Path).text).length <
      (parentText^[i] (⟨true, ns⟩ : Path).text).length := by
    intro i hi
    have hlt : ns.length - (i + 1) < ns.length := by omega
    have hsucc : ns.length - i = ns.length - (i + 1) + 1 := by omega
    have htake : ∀ n ∈ ns.take (ns.length - (i + 1)), Segment n :=
      fun n hn => hns n (List.mem_of_mem_take hn)
    rw [iterate_parentText hns hi, iterate_parentText hns (Nat.le_of_lt hi), hsucc,
      List.take_succ_eq_append_getElem hlt, text_snoc htake]
    exact length_lt_fileText (hns _ (List.getElem_mem hlt)).ne_empty
  induction k with
  | zero => exact absurd hjk (Nat.not_lt_zero j)
  | succ k ih =>
    rcases Nat.lt_succ_iff_lt_or_eq.mp hjk with hlt | rfl
    · exact (hstep k hk).trans (ih hlt (Nat.le_of_succ_le hk))
    · exact hstep j hk

theorem iterate_parentText_root {ns : List String} (hns : ∀ n ∈ ns, Segment n) {k : Nat}
    (hk : ns.length ≤ k) : parentText^[k] (⟨true, ns⟩ : Path).text = "/" := by
  have hroot : parentText^[ns.length] (⟨true, ns⟩ : Path).text = "/" := by
    rw [iterate_parentText hns (Nat.le_refl _), Nat.sub_self, List.take_zero]
    rfl
  obtain ⟨m, rfl⟩ := Nat.exists_eq_add_of_le' hk
  rw [Function.iterate_add_apply, hroot, Function.iterate_fixed parentText_root]

theorem parentText_fixed_iff {ns : List String} (hns : ∀ n ∈ ns, Segment n) (k : Nat) :
    parentText (parentText^[k] (⟨true, ns⟩ : Path).text) = parentText^[k] (⟨true, ns⟩ : Path).text ↔
      ns.length ≤ k := by
  refine ⟨fun h => ?_, fun h => by rw [iterate_parentText_root hns h, parentText_root]⟩
  by_contra hlt
  have hshorter := length_iterate_parentText hns (Nat.lt_succ_self k) (Nat.lt_of_not_le hlt)
  rw [Function.iterate_succ_apply', h] at hshorter
  exact Nat.lt_irrefl _ hshorter

/-- The files of a name in different directories above a path are different. -/
theorem fileText_injective {ns : List String} (hns : ∀ n ∈ ns, Segment n) {name : String}
    (hname : '/' ∉ name.toList) {j k : Nat} (hj : j ≤ ns.length) (hk : k ≤ ns.length)
    (h : fileText (parentText^[j] (⟨true, ns⟩ : Path).text) name =
      fileText (parentText^[k] (⟨true, ns⟩ : Path).text) name) : j = k := by
  have hdirectory : ∀ i ≤ ns.length,
      parentText (fileText (parentText^[i] (⟨true, ns⟩ : Path).text) name) =
        parentText^[i] (⟨true, ns⟩ : Path).text := by
    intro i hi
    refine parentText_fileText ?_ hname
    rw [iterate_parentText hns hi]
    exact text_ne_empty _
  have hsame := congrArg parentText h
  rw [hdirectory j hj, hdirectory k hk] at hsame
  rcases Nat.lt_trichotomy j k with hlt | heq | hlt
  · exact absurd (congrArg String.length hsame).symm (length_iterate_parentText hns hlt hk).ne
  · exact heq
  · exact absurd (congrArg String.length hsame) (length_iterate_parentText hns hlt hj).ne

end Path

/-! ### The search -/

/-- Answers by the text of a file; the texts asked for are noted. -/
def asking (answer : String → Status) (file : Path) : StateM (List String) Status := do
  modify (· ++ [file.text])
  return answer file.text

/-- What the last answer of a search makes of it. -/
def Nearest.ofAnswer (file : Path) : Status → Nearest
  | .present => .found file
  | .failed cause => .failed file cause
  | .missing => .nowhere

theorem lookIn_run (answer : String → Status) (name : String) (directory : Path)
    (rest : StateM (List String) Nearest) (log : List String) :
    (lookIn (asking answer) name directory rest).run log =
      if answer (directory.push name).text = .missing then
        rest.run (log ++ [(directory.push name).text])
      else (.ofAnswer (directory.push name) (answer (directory.push name).text),
        log ++ [(directory.push name).text]) := by
  cases h : answer (directory.push name).text with
  | missing => simp [lookIn, asking, h]
  | present | failed =>
    simp only [lookIn, asking, h]
    rfl

/-- The search goes up until a file is not missing or there is no directory left. -/
theorem nearestFrom_run (answer : String → Status) (name : String) (inner log : List String) :
    let file (k : Nat) := (⟨true, (inner.drop k).reverse⟩ : Path).push name
    ∃ last ≤ inner.length,
      (nearestFrom (asking answer) name inner).run log =
        (.ofAnswer (file last) (answer (file last).text),
          log ++ (List.range (last + 1)).map fun k => (file k).text) ∧
      (∀ k < last, answer (file k).text = .missing) ∧
      (answer (file last).text = .missing → last = inner.length) := by
  intro file
  induction inner generalizing log with
  | nil =>
    refine ⟨0, Nat.le_refl 0, ?_, by simp, fun _ => rfl⟩
    rw [nearestFrom, lookIn_run]
    split_ifs with hmissing
    · have hroot : answer (file 0).text = .missing := hmissing
      rw [hroot]
      rfl
    · rfl
  | cons name' above ih =>
    by_cases hmissing : answer (file 0).text = .missing
    · obtain ⟨last, hlast, hrun, hbefore, hend⟩ := ih (log ++ [(file 0).text])
      refine ⟨last + 1, Nat.succ_le_succ hlast, ?_, fun k hk => ?_, fun h => ?_⟩
      · rw [nearestFrom, lookIn_run]
        have hrange : List.range (last + 1 + 1) = 0 :: (List.range (last + 1)).map Nat.succ :=
          List.range_succ_eq_map
        refine (if_pos hmissing).trans (hrun.trans ?_)
        rw [hrange, List.map_cons, List.map_map, List.append_assoc]
        rfl
      · rcases k with _ | k
        · exact hmissing
        · exact hbefore k (Nat.lt_of_succ_lt_succ hk)
      · exact congrArg Nat.succ (hend h)
    · refine ⟨0, Nat.zero_le _, ?_, by simp, fun h => absurd h hmissing⟩
      rw [nearestFrom, lookIn_run]
      exact if_neg hmissing

/-- The search in terms of the texts of its files. -/
theorem nearest_run {ns : List String} (hns : ∀ n ∈ ns, Path.Segment n) (answer : String → Status) :
    let file (k : Nat) :=
      Path.fileText (Path.parentText^[k] (⟨true, ns⟩ : Path).text) BuildFile.fileName
    ∃ last ≤ ns.length, ∃ p : Path, p.text = file last ∧
      (nearest (asking answer) BuildFile.fileName ⟨true, ns⟩).run [] =
        (.ofAnswer p (answer (file last)), (List.range (last + 1)).map file) ∧
      (∀ k < last, answer (file k) = .missing) ∧
      (answer (file last) = .missing → last = ns.length) := by
  intro file
  have hfile : ∀ k ≤ ns.length,
      ((⟨true, (ns.reverse.drop k).reverse⟩ : Path).push BuildFile.fileName).text = file k := by
    intro k hk
    have htake : (ns.reverse.drop k).reverse = ns.take (ns.length - k) := by
      rw [List.reverse_drop, List.reverse_reverse, List.length_reverse]
    rw [htake]
    change (⟨true, ns.take (ns.length - k) ++ [BuildFile.fileName]⟩ : Path).text = _
    rw [Path.text_snoc fun n hn => hns n (List.mem_of_mem_take hn), ← Path.iterate_parentText hns hk]
  obtain ⟨last, hlast, hrun, hbefore, hend⟩ :=
    nearestFrom_run answer BuildFile.fileName ns.reverse []
  rw [List.length_reverse] at hlast hend
  rw [hfile last hlast] at hrun hend
  refine ⟨last, hlast, _, hfile last hlast, hrun.trans ?_, fun k hk => ?_, hend⟩
  · rw [List.nil_append, List.map_congr_left fun k hk => hfile k ?_]
    rw [List.mem_range] at hk
    omega
  · rw [← hfile k (by omega)]
    exact hbefore k hk

/-- **A search from an absolute path in its simplest form is decided by the nearest file.** Let the
directories be those that cutting the path's text at its last slash leads to. There are finitely many,
as cutting ends with the root, and all before it are different from the next. The search asks for the
file in each of them, in order, and never twice; only missing files come before the last one asked for.
The first file that is not missing decides: it is found if it is there, and otherwise the search fails
because of it. The search finds nothing exactly if the file is missing in all directories up to the
root. -/
theorem search_decided_by_nearest (s : String) (answer : String → Status)
    (hrooted : Path.isRooted s = true) (hclean : (Path.ofText s).text = s) :
    let file (k : Nat) := Path.fileText (Path.parentText^[k] s) BuildFile.fileName
    let search := (nearest (asking answer) BuildFile.fileName (Path.ofText s)).run []
    ∃ height,
      (Path.parentText^[height] s = "/" ∧
        ∀ k, Path.parentText (Path.parentText^[k] s) = Path.parentText^[k] s ↔ height ≤ k) ∧
      (∃ last ≤ height, search.2 = (List.range (last + 1)).map file ∧
        ∀ k < last, answer (file k) = .missing) ∧
      search.2.Nodup ∧
      (∀ k ≤ height, (∀ j < k, answer (file j) = .missing) →
        (answer (file k) = .present → ∃ p : Path, p.text = file k ∧ search.1 = .found p) ∧
        ∀ cause, answer (file k) = .failed cause →
          ∃ p : Path, p.text = file k ∧ search.1 = .failed p cause) ∧
      (search.1 = .nowhere ↔ ∀ k ≤ height, answer (file k) = .missing) := by
  obtain ⟨hroot, hsegments⟩ := Path.ofText_segments s
  obtain ⟨ns, hp⟩ : ∃ ns, Path.ofText s = ⟨true, ns⟩ :=
    ⟨_, congrArg (Path.mk · _) (hroot.trans hrooted)⟩
  rw [hp] at hclean hsegments
  have hns : ∀ n ∈ ns, Path.Segment n := hsegments
  subst hclean
  intro file search
  obtain ⟨last, hlast, p, htext, hrun, hmissing, hend⟩ := nearest_run hns answer
  have hsearch : search = (.ofAnswer p (answer (file last)), (List.range (last + 1)).map file) := by
    rw [← hrun, ← hp]
  have hasked : search.2 = (List.range (last + 1)).map file := congrArg Prod.snd hsearch
  have hfound : search.1 = .ofAnswer p (answer (file last)) := congrArg Prod.fst hsearch
  refine ⟨ns.length, ⟨Path.iterate_parentText_root hns (Nat.le_refl _), Path.parentText_fixed_iff hns⟩,
    ⟨last, hlast, hasked, hmissing⟩, ?_, fun k hk hfirst => ?_, ?_⟩
  · rw [hasked]
    refine List.Nodup.map_on (fun j hj k hk h => ?_) List.nodup_range
    rw [List.mem_range] at hj hk
    exact Path.fileText_injective hns (by decide) (by omega) (by omega) h
  · -- The first file that is not missing is the last one asked for.
    have hdecides : answer (file k) ≠ .missing → k = last := by
      intro h
      rcases Nat.lt_trichotomy k last with hlt | heq | hlt
      · exact absurd (hmissing k hlt) h
      · exact heq
      · have hlen := hend (hfirst last hlt)
        omega
    refine ⟨fun h => ?_, fun cause h => ?_⟩
    · obtain rfl := hdecides (by rw [h]; decide)
      exact ⟨p, htext, by rw [hfound, h]; rfl⟩
    · obtain rfl := hdecides (by rw [h]; exact Status.noConfusion)
      exact ⟨p, htext, by rw [hfound, h]; rfl⟩
  · rw [hfound]
    constructor
    · intro h k hk
      have hnone : answer (file last) = .missing := by
        cases hanswer : answer (file last) with
        | missing => rfl
        | present | failed =>
          rw [hanswer] at h
          cases h
      have hheight := hend hnone
      rcases Nat.lt_or_eq_of_le hk with hlt | rfl
      · exact hmissing k (by omega)
      · rw [← hheight]
        exact hnone
    · intro h
      rw [h last hlast]
      rfl

/-- The premises can be met: of three directories the middle one holds the file. -/
theorem search_from_inner_directory :
    let answer (file : String) : Status := if file = "/a/calil.toml" then .present else .missing
    Path.isRooted "/a/b" = true ∧ (Path.ofText "/a/b").text = "/a/b" ∧
      ∃ p : Path, p.text = "/a/calil.toml" ∧
        ((nearest (asking answer) BuildFile.fileName (Path.ofText "/a/b")).run []).1 = .found p := by
  intro answer
  have hrooted : Path.isRooted "/a/b" = true := by decide
  have hclean : (Path.ofText "/a/b").text = "/a/b" := by decide
  obtain ⟨height, ⟨-, hfixed⟩, -, -, hfirst, -⟩ := search_decided_by_nearest "/a/b" answer hrooted hclean
  have hheight : 1 ≤ height := by
    by_contra h
    have hzero := (hfixed 0).mpr (by omega)
    revert hzero
    decide
  have hinner : ∀ j < 1,
      answer (Path.fileText (Path.parentText^[j] "/a/b") BuildFile.fileName) = .missing := by
    decide
  exact ⟨hrooted, hclean, (hfirst 1 hheight hinner).1 (by decide)⟩

end ShaderIL
