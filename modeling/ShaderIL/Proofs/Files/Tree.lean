import Mathlib.Tactic
import ShaderIL.Files.Tree

/-!
# Names and places

A plain name is one that a directory can hold and that stands for itself in a text. Pushed onto a
path, it becomes the last piece of the path's text (`Path.pieces_text_push`), so the place that the text
names lies in a directory and ends with the name (`FileTree.resolve_push_ok`).

A tree is known by its nodes. Walks only ask for directories, so a text that names a place goes on
naming it as long as no directory is lost (`resolve_of_keeps`). Writing a file and making a directory
are both described by `FileTree.Puts`: one node is put into the tree, and the rest stays.
-/

namespace ShaderIL

/-- A name that stands for itself in a text and that a directory can hold. -/
structure Path.PlainName (name : String) : Prop where
  ne_empty : name ≠ ""
  ne_dot : name ≠ "."
  ne_up : name ≠ ".."
  noSlash : '/' ∉ name.toList
  noZero : Char.ofNat 0 ∉ name.toList
  short : name.utf8ByteSize ≤ FileTree.maxName

namespace Path

variable {p : Path} {name : String}

/-! ### Pieces of texts -/

theorem splitFrom_append (piece cs ds : List Char) :
    splitFrom piece (cs ++ '/' :: ds) = splitFrom piece cs ++ splitFrom [] ds := by
  induction cs generalizing piece with
  | nil => simp [splitFrom]
  | cons c cs ih =>
    by_cases hc : c = '/'
    · simp [splitFrom, hc, ih]
    · simp [splitFrom, hc, ih]

theorem splitFrom_of_noSlash {piece cs : List Char} (h : '/' ∉ cs) :
    splitFrom piece cs = [String.ofList (piece.reverse ++ cs)] := by
  induction cs generalizing piece with
  | nil => simp [splitFrom]
  | cons c cs ih =>
    obtain ⟨hc, hcs⟩ := not_or.mp (List.mem_cons.not.mp h)
    simp [splitFrom, Ne.symm hc, ih hcs]

theorem pieces_append (a b : String) : pieces (a ++ "/" ++ b) = pieces a ++ pieces b := by
  have hchars : (a ++ "/" ++ b).toList = a.toList ++ '/' :: b.toList := by simp
  rw [pieces, hchars, splitFrom_append]
  rfl

theorem PlainName.pieces_eq (h : PlainName name) : pieces name = [name] := by
  simp [pieces, splitFrom_of_noSlash h.noSlash]

theorem isRooted_append {a : String} (ha : a ≠ "") (b : String) : isRooted (a ++ b) = isRooted a := by
  have hchars : a.toList ≠ [] := fun h => ha (String.toList_eq_nil_iff.mp h)
  rw [isRooted, isRooted, String.toList_append, List.head?_append_of_ne_nil _ hchars]

/-! ### Plain names at the end of a path -/

theorem push_plain (h : PlainName name) (p : Path) :
    p.push name = { p with names := p.names ++ [name] } := by
  simp [push, h.ne_empty, h.ne_dot, h.ne_up]

theorem append_plain (h : PlainName name) (p : Path) : p.append name = p.push name := by
  simp [append, h.pieces_eq]

theorem parent_push (h : PlainName name) (p : Path) : (p.push name).parent = p := by
  simp [push_plain h, parent]

theorem names_push_ne_nil (h : PlainName name) (p : Path) : (p.push name).names ≠ [] := by
  simp [push_plain h]

theorem text_push (hp : p.names ≠ []) (h : PlainName name) :
    (p.push name).text = p.text ++ "/" ++ name := by
  have hnames : "/".intercalate (p.names ++ [name]) = "/".intercalate p.names ++ "/" ++ name := by
    rw [String.intercalate_append_of_ne_nil hp (List.cons_ne_nil _ _), String.intercalate_singleton]
  rw [push_plain h]
  by_cases hrooted : p.rooted = true
  · simp [text, hrooted, hnames, String.append_assoc]
  · simp [text, hrooted, hp, hnames]

theorem pieces_text_push (h : PlainName name) (p : Path) :
    ∃ front, pieces (p.push name).text = front ++ [name] := by
  by_cases hp : p.names = []
  · rw [push_plain h, text, hp, List.nil_append, String.intercalate_singleton]
    split_ifs with hrooted hempty
    · have hslash : "/" ++ name = "" ++ "/" ++ name := by simp
      exact ⟨pieces "", by rw [hslash, pieces_append, h.pieces_eq]⟩
    · cases hempty
    · exact ⟨[], by rw [h.pieces_eq, List.nil_append]⟩
  · exact ⟨pieces p.text, by rw [text_push hp h, pieces_append, h.pieces_eq]⟩

end Path

namespace FileTree

variable {t t' : FileTree} {d p : Path} {s name : String} {q r above : List String} {n : Node}

/-! ### Nodes -/

theorem node?_of_ne_nil (hq : q ≠ []) (t : FileTree) : t.node? q = t.nodes.lookup q := by
  simp [node?, hq]

/-- Setting a node changes what is at its place and nothing else. -/
theorem node?_set (hq : q ≠ []) (t : FileTree) (n : Node) (r : List String) :
    (t.set q n).node? r = if r = q then some n else t.node? r := by
  have hothers : ∀ nodes : List (List String × Node), (nodes.filter fun e => e.1 != q).lookup r =
      if r = q then none else nodes.lookup r := by
    intro nodes
    induction nodes with
    | nil => simp
    | cons e nodes ih =>
      obtain ⟨place, node⟩ := e
      by_cases hplace : place = q
      · by_cases hr : r = q
        · simpa [hplace, hr] using ih
        · have hne : (r == q) = false := beq_eq_false_iff_ne.mpr hr
          simpa [hplace, hr, List.lookup_cons, hne] using ih
      · by_cases hr : r = place
        · simp [hplace, hr]
        · have hne : (r == place) = false := beq_eq_false_iff_ne.mpr hr
          simpa [hplace, List.lookup_cons, hne] using ih
  by_cases hr : r = []
  · subst hr
    simp [node?, Ne.symm hq]
  · have hnodes : (t.set q n).nodes = (t.nodes.filter fun e => e.1 != q) ++ [(q, n)] := rfl
    rw [node?_of_ne_nil hr, node?_of_ne_nil hr, hnodes, List.lookup_append, hothers]
    by_cases hrq : r = q
    · simp [hrq]
    · have hne : (r == q) = false := beq_eq_false_iff_ne.mpr hrq
      simp [hrq, List.lookup_cons, hne]

/-! ### Walks -/

theorem walk_append (t : FileTree) (q xs ys : List String) :
    t.walk q (xs ++ ys) = t.walk q xs >>= fun r => t.walk r ys := by
  induction xs generalizing q with
  | nil => rfl
  | cons x xs ih =>
    rw [List.cons_append, walk, walk]
    split
    · rfl
    · rfl
    · split_ifs
      · exact ih q
      · exact ih q.dropLast
      · rfl
      · exact ih (q ++ [x])

theorem walk_plain (hname : Path.PlainName name) (hq : t.node? q = some .directory) :
    t.walk q [name] = .ok (q ++ [name]) := by
  simp [walk, hq, hname.ne_empty, hname.ne_dot, hname.ne_up, Nat.not_lt.mpr hname.short]

theorem walk_missing (hq : t.node? q = none) : t.walk q [name] = .error .notFound := by
  simp [walk, hq]

/-- A walk asks whether it starts in a directory, or ends where it starts. -/
theorem directory_of_walk {xs : List String} (h : t.walk q xs = .ok r)
    (hr : t.node? r = some .directory) : t.node? q = some .directory := by
  rcases xs with _ | ⟨x, xs⟩
  · cases h
    exact hr
  · rw [walk] at h
    split at h
    · cases h
    · cases h
    · assumption

/-- A walk that ends with a plain name ends in a directory under that name. -/
theorem walk_snoc {xs : List String} (hname : Path.PlainName name)
    (h : t.walk q (xs ++ [name]) = .ok r) :
    ∃ above, t.walk q xs = .ok above ∧ t.node? above = some .directory ∧ r = above ++ [name] := by
  rw [walk_append] at h
  rcases habove : t.walk q xs with e | above
  · rw [habove] at h
    cases h
  · rw [habove] at h
    change t.walk above [name] = .ok r at h
    have hdirectory : t.node? above = some .directory := by
      rw [walk] at h
      split at h
      · cases h
      · cases h
      · assumption
    rw [walk_plain hname hdirectory] at h
    exact ⟨above, rfl, hdirectory, (Except.ok.inj h).symm⟩

/-- The directories of one tree are directories of the other. -/
def KeepsDirectories (t t' : FileTree) : Prop :=
  ∀ q, t.node? q = some .directory → t'.node? q = some .directory

theorem walk_of_keeps (hkeeps : t.KeepsDirectories t') {xs : List String} (h : t.walk q xs = .ok r) :
    t'.walk q xs = .ok r := by
  induction xs generalizing q with
  | nil => exact h
  | cons x xs ih =>
    rw [walk] at h ⊢
    split at h
    · cases h
    · cases h
    · rename_i hq
      rw [hkeeps q hq]
      split_ifs at h ⊢
      · exact ih h
      · exact ih h
      · exact ih h

/-! ### Texts that name a place -/

theorem resolve_ok_iff : t.resolve d s = .ok q ↔
    s ≠ "" ∧ Char.ofNat 0 ∉ s.toList ∧ s.utf8ByteSize ≤ maxText ∧
      t.walk (if Path.isRooted s then [] else d.names) (Path.pieces s) = .ok q := by
  rw [resolve]
  split_ifs with hempty hzero hlong <;> simp_all

theorem resolve_of_keeps (hkeeps : t.KeepsDirectories t') (h : t.resolve d s = .ok q) :
    t'.resolve d s = .ok q := by
  rw [resolve_ok_iff] at h ⊢
  exact ⟨h.1, h.2.1, h.2.2.1, walk_of_keeps hkeeps h.2.2.2⟩

/-- From the place of a path, a plain name leads one step on. -/
theorem resolve_push (hp : p.names ≠ []) (hname : Path.PlainName name)
    (hroom : p.text.utf8ByteSize + 1 + name.utf8ByteSize ≤ maxText)
    (h : t.resolve d p.text = .ok q) : t.resolve d (p.push name).text = t.walk q [name] := by
  obtain ⟨hne, hzero, -, hwalk⟩ := resolve_ok_iff.mp h
  have hsize : (p.text ++ "/" ++ name).utf8ByteSize = p.text.utf8ByteSize + 1 + name.utf8ByteSize := by
    rw [String.utf8ByteSize_append, String.utf8ByteSize_append]
    rfl
  have hfree : Char.ofNat 0 ∉ (p.text ++ "/" ++ name).toList := by
    have hslash : Char.ofNat 0 ∉ "/".toList := by decide
    simp only [String.toList_append, List.mem_append, not_or]
    exact ⟨⟨hzero, hslash⟩, hname.noZero⟩
  have hstart : Path.isRooted (p.text ++ "/" ++ name) = Path.isRooted p.text := by
    rw [String.append_assoc, Path.isRooted_append hne]
  rw [Path.text_push hp hname, resolve, if_neg, if_neg, if_neg, hstart, Path.pieces_append,
    hname.pieces_eq, walk_append, hwalk]
  · rfl
  · omega
  · simpa using hfree
  · simp [hne]

/-- The place of a path that ends with a plain name lies in a directory under that name. -/
theorem resolve_push_ok (hname : Path.PlainName name) (h : t.resolve d (p.push name).text = .ok q) :
    ∃ above, t.node? above = some .directory ∧ q = above ++ [name] := by
  obtain ⟨-, -, -, hwalk⟩ := resolve_ok_iff.mp h
  obtain ⟨front, hfront⟩ := Path.pieces_text_push hname p
  rw [hfront] at hwalk
  obtain ⟨above, -, hdirectory, hq⟩ := walk_snoc hname hwalk
  exact ⟨above, hdirectory, hq⟩

/-! ### One node put into a tree -/

/-- The trees differ in the node at one place, and no directory is lost. -/
structure Puts (t : FileTree) (q : List String) (n : Node) (t' : FileTree) : Prop where
  node : ∀ r, t'.node? r = if r = q then some n else t.node? r
  kept : t.node? q = some .directory → n = .directory

theorem Puts.same (h : t.Puts q n t') : t'.node? q = some n := by
  rw [h.node, if_pos rfl]

theorem Puts.other (h : t.Puts q n t') (hr : r ≠ q) : t'.node? r = t.node? r := by
  rw [h.node, if_neg hr]

theorem Puts.keepsDirectories (h : t.Puts q n t') : t.KeepsDirectories t' := by
  intro r hr
  by_cases hrq : r = q
  · subst hrq
    rw [h.same, h.kept hr]
  · rw [h.other hrq, hr]

theorem Puts.resolve (h : t.Puts q n t') (hr : t.resolve d s = .ok r) : t'.resolve d s = .ok r :=
  resolve_of_keeps h.keepsDirectories hr

/-! ### Reading and writing -/

theorem read_ok_iff {x : Stored} :
    t.read d s = .ok x ↔ ∃ q, t.resolve d s = .ok q ∧ t.node? q = some (.file x) := by
  rw [read, lookup]
  rcases hresolve : t.resolve d s with cause | q
  · simp
  · rcases hnode : t.node? q with _ | _ | y
    · simp [hnode]
    · simp [hnode]
    · simp [hnode]

theorem read_missing (h : t.resolve d s = .ok q) (hq : t.node? q = none) :
    t.read d s = .error ⟨"open", s, .notFound⟩ := by
  simp [read, lookup, h, hq]

theorem read_unresolved {cause : FileCause} (h : t.resolve d s = .error cause) :
    t.read d s = .error ⟨"open", s, cause⟩ := by
  simp [read, lookup, h]

/-- A file under a plain name is not touched by what is put under another name. -/
theorem Puts.read_other {x : Stored} (h : t.Puts q n t') (hname : Path.PlainName name)
    (hother : q.getLast? ≠ some name) (hread : t.read d (p.push name).text = .ok x) :
    t'.read d (p.push name).text = .ok x := by
  obtain ⟨r, hresolve, hnode⟩ := read_ok_iff.mp hread
  obtain ⟨above, -, rfl⟩ := resolve_push_ok hname hresolve
  have hne : above ++ [name] ≠ q := by
    rintro rfl
    simp at hother
  exact read_ok_iff.mpr ⟨_, h.resolve hresolve, by rw [h.other hne, hnode]⟩

/-- A file can be put at the place that a text names. -/
def Accepts (t : FileTree) (d : Path) (s : String) : Prop :=
  ∃ q, t.resolve d s = .ok q ∧ t.node? q ≠ some .directory ∧
    t.node? q.dropLast = some .directory

/-- Where a file is accepted it is written, and nothing else changes. -/
theorem Accepts.write (h : t.Accepts d s) (x : Stored) :
    ∃ q t', t.resolve d s = .ok q ∧ t.write d s x = .ok t' ∧ t.Puts q (.file x) t' := by
  obtain ⟨q, hresolve, hq, habove⟩ := h
  have hne : q ≠ [] := by
    rintro rfl
    exact hq rfl
  have hwrite : t.write d s x = .ok (t.set q (.file x)) := by
    rcases hnode : t.node? q with _ | _ | y
    · simp [FileTree.write, hresolve, hnode, habove]
    · exact absurd hnode hq
    · simp [FileTree.write, hresolve, hnode]
  exact ⟨q, _, hresolve, hwrite, node?_set hne t _, fun hdirectory => absurd hdirectory hq⟩

/-- A text goes on being accepted unless a directory is put where it leads. -/
theorem Puts.accepts (h : t.Puts q n t') (hname : Path.PlainName name)
    (hother : n = .directory → q.getLast? ≠ some name) (haccepts : t.Accepts d (p.push name).text) :
    t'.Accepts d (p.push name).text := by
  obtain ⟨r, hresolve, hr, habove⟩ := haccepts
  obtain ⟨above, -, rfl⟩ := resolve_push_ok hname hresolve
  refine ⟨_, h.resolve hresolve, ?_, h.keepsDirectories _ habove⟩
  by_cases hrq : above ++ [name] = q
  · rw [hrq, h.same]
    intro hn
    have hlast := hother (Option.some.inj hn)
    rw [← hrq] at hlast
    simp at hlast
  · rwa [h.other hrq]

/-! ### Making directories -/

/-- Nothing is made on the way through directories that are there. -/
theorem makeFrom_of_walk {xs : List String} (h : t.walk q xs = .ok r)
    (hr : t.node? r = some .directory) (done rest : List String) :
    t.makeFrom q done (xs ++ rest) = t.makeFrom r (done ++ xs) rest := by
  induction xs generalizing q done with
  | nil =>
    cases h
    rw [List.append_nil, List.nil_append]
  | cons x xs ih =>
    have hdone : done ++ x :: xs = (done ++ [x]) ++ xs := by simp
    have hq := directory_of_walk h hr
    rw [walk, hq] at h
    rw [List.cons_append, makeFrom, hdone]
    split_ifs at h ⊢ with hstay hup hlong
    · exact ih h _
    · exact ih h _
    · have hnext : t.node? (q ++ [x]) = some .directory := directory_of_walk h hr
      simp only [hnext]
      exact ih h _

/-- A path whose last name alone may be missing becomes a directory, and nothing else changes. -/
theorem makeDirectories_push (hname : Path.PlainName name)
    (h : t.resolve d (p.push name).text = .ok q)
    (hq : t.node? q = some .directory ∨ t.node? q = none) :
    ∃ t', t.makeDirectories d (p.push name).text = .ok t' ∧ t.Puts q .directory t' := by
  obtain ⟨hne, hzero, -, hwalk⟩ := resolve_ok_iff.mp h
  obtain ⟨front, hfront⟩ := Path.pieces_text_push hname p
  rw [hfront] at hwalk
  obtain ⟨above, habove, hdirectory, rfl⟩ := walk_snoc hname hwalk
  have hmake : t.makeDirectories d (p.push name).text =
      t.makeFrom above ([] ++ front) [name] := by
    rw [makeDirectories, if_neg (by simpa using hne), if_neg (by simpa using hzero), hfront]
    exact makeFrom_of_walk habove hdirectory [] [name]
  rw [hmake]
  rcases hq with hq | hq
  · refine ⟨t, ?_, fun r => ?_, fun _ => rfl⟩
    · simp [makeFrom, hname.ne_empty, hname.ne_dot, hname.ne_up, hq]
    · split_ifs with hr
      · rw [hr, hq]
      · rfl
  · refine ⟨t.set (above ++ [name]) .directory, ?_, node?_set (by simp) t _, fun _ => rfl⟩
    simp [makeFrom, hname.ne_empty, hname.ne_dot, hname.ne_up, hq, Nat.not_lt.mpr hname.short]

end FileTree

end ShaderIL
