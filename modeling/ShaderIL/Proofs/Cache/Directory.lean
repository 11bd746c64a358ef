import ShaderIL.CommandLine.World
import ShaderIL.Proofs.Cache.Key
import ShaderIL.Proofs.Files.Tree

/-!
# A cache directory is a store

The entries of a cache directory lie in one place, each in a file named for its key.
`World.Caches w cache place s` says that these files are the files of the store `s`. Under this relation
reading an entry is `Store.get` (`Caches.readEntry_run`) and writing one is `Store.put`
(`Caches.writeEntry_run`). Files of other names do not disturb the relation, and writing an entry does
not touch them.
-/

namespace ShaderIL

/-! ### Stores -/

namespace Store

theorem find?_insert (s : Store) (k l : Key) (f : Stored) :
    (s.insert k f).find? l = if l = k then some f else s.find? l := by
  have hplace : ∀ files : List (Key × Stored),
      (place k f files).lookup l = if l = k then some f else files.lookup l := by
    intro files
    induction files with
    | nil =>
      by_cases hl : l = k
      · simp [place, hl]
      · have hne : (l == k) = false := beq_eq_false_iff_ne.mpr hl
        simp [place, hl, hne, List.lookup_cons]
    | cons e files ih =>
      obtain ⟨m, g⟩ := e
      rw [place]
      by_cases hl : l = k
      · subst hl
        rw [if_pos rfl] at ih ⊢
        split_ifs with hm hlt
        · exact List.lookup_cons_self
        · exact List.lookup_cons_self
        · have hne : (l == m) = false := beq_eq_false_iff_ne.mpr hm
          rw [List.lookup_cons, hne, ih]
      · have hne : (l == k) = false := beq_eq_false_iff_ne.mpr hl
        rw [if_neg hl] at ih ⊢
        split_ifs with hm hlt
        · subst hm
          rw [List.lookup_cons, List.lookup_cons, hne]
        · rw [List.lookup_cons, hne]
        · rw [List.lookup_cons, List.lookup_cons, ih]
  exact hplace s.files

theorem find?_put (s : Store) (k l : Key) (e : Entry) :
    (s.put k e).find? l = if l = k then some (.entry e.stamped) else s.find? l :=
  find?_insert s k l _

theorem get_eq_none {s : Store} {k : Key} (h : s.find? k = none) : s.get k = .ok none := by
  rw [get, h]

theorem get_eq_entry {s : Store} {k : Key} {e : Entry} (h : s.find? k = some (.entry e.stamped)) :
    s.get k = .ok (some e.stamped) := by
  rw [get, h]
  rfl

end Store

/-! ### Names in a cache directory -/

/-- The directory of the entries. -/
def kernelsPath (cache : String) : Path := (Path.ofText cache).push "kernels"

theorem plainName_kernels : Path.PlainName "kernels" :=
  ⟨by decide, by decide, by decide, by decide, by decide, by decide⟩

theorem Sha256.State.plainName_fileName (k : Key) : Path.PlainName k.fileName := by
  have hlong : ∀ s : String, s.toList.length < 70 → k.fileName ≠ s := by
    rintro s hs rfl
    rw [length_fileName] at hs
    omega
  have hslash : ∀ d < 16, '/' ≠ Nat.digitChar d := by decide
  have hzero : ∀ d < 16, Char.ofNat 0 ≠ Nat.digitChar d := by decide
  refine ⟨hlong "" (by decide), hlong "." (by decide), hlong ".." (by decide), fun h => ?_,
    fun h => ?_, ?_⟩
  · rcases mem_fileName h with ⟨d, hd, hc⟩ | hc
    · exact hslash d hd hc
    · exact absurd hc (by decide)
  · rcases mem_fileName h with ⟨d, hd, hc⟩ | hc
    · exact hzero d hd hc
    · exact absurd hc (by decide)
  · rw [utf8ByteSize_fileName]
    decide

/-- A plain name that nothing in a cache directory has. -/
structure Path.ForeignName (name : String) : Prop extends Path.PlainName name where
  ne_kernels : name ≠ "kernels"
  ne_fileName : ∀ k : Key, name ≠ k.fileName

theorem Path.ForeignName.entry_last_ne {name : String} (h : Path.ForeignName name)
    (place : List String) (k : Key) : (place ++ [k.fileName]).getLast? ≠ some name := by
  rw [List.getLast?_concat]
  exact fun heq => h.ne_fileName k (Option.some.inj heq).symm

theorem entryPath_eq (cache : String) (k : Key) :
    entryPath cache k = (kernelsPath cache).push k.fileName := by
  rw [entryPath, Path.append_plain plainName_kernels, kernelsPath]

theorem parent_entryPath (cache : String) (k : Key) :
    (entryPath cache k).parent = kernelsPath cache := by
  rw [entryPath_eq, Path.parent_push k.plainName_fileName]

/-! ### Running on a world -/

namespace World

variable {w : World} {cache : String} {place : List String} {s : Store}

theorem bind_run {α β : Type} {x : StateM World α} {f : α → StateM World β} {a : α} {w' : World}
    (h : x.run w = (a, w')) : (x >>= f).run w = (f a).run w' := by
  rw [StateT.run_bind, h]
  rfl

theorem readFile_run (w : World) (path : String) :
    (Shell.readFile path : StateM World _).run w = (w.tree.read w.directory path, w) := rfl

theorem changing_run {f : World → Except FileError FileTree} {t : FileTree} (h : f w = .ok t) :
    (changing f).run w = (.ok (), { w with tree := t }) := by
  have hget : (get : StateM World World).run w = (w, w) := rfl
  rw [changing, bind_run hget, h]
  rfl

theorem writeFile_run {path : String} {x : Stored} {t : FileTree}
    (h : w.tree.write w.directory path x = .ok t) :
    (Shell.writeFile path x : StateM World _).run w = (.ok (), { w with tree := t }) :=
  changing_run h

theorem makeDirectories_run {path : String} {t : FileTree}
    (h : w.tree.makeDirectories w.directory path = .ok t) :
    (Shell.makeDirectories path : StateM World _).run w = (.ok (), { w with tree := t }) :=
  changing_run h

/-- The files of a cache directory are those of a store. The directory of the entries may still be
missing, and there is room for the names of the files in it. -/
structure Caches (w : World) (cache : String) (place : List String) (s : Store) : Prop where
  resolves : w.tree.resolve w.directory (kernelsPath cache).text = .ok place
  room : (kernelsPath cache).text.utf8ByteSize + 71 ≤ FileTree.maxText
  folder : w.tree.node? place = some .directory ∨
    w.tree.node? place = none ∧ ∀ k, s.find? k = none
  entries : ∀ k : Key, w.tree.node? (place ++ [k.fileName]) = (s.find? k).map .file

theorem Caches.place_last (h : w.Caches cache place s) : place.getLast? = some "kernels" := by
  obtain ⟨above, -, rfl⟩ := FileTree.resolve_push_ok plainName_kernels h.resolves
  simp

theorem Caches.place_last_ne {name : String} (h : w.Caches cache place s)
    (hname : Path.ForeignName name) : place.getLast? ≠ some name := by
  rw [h.place_last]
  exact fun heq => hname.ne_kernels (Option.some.inj heq).symm

theorem Caches.resolve_entry (h : w.Caches cache place s) (k : Key) :
    w.tree.resolve w.directory (entryPath cache k).text = w.tree.walk place [k.fileName] := by
  have hroom := h.room
  rw [entryPath_eq]
  refine FileTree.resolve_push (Path.names_push_ne_nil plainName_kernels _) k.plainName_fileName ?_
    h.resolves
  rw [k.utf8ByteSize_fileName]
  omega

theorem Caches.read_entry (h : w.Caches cache place s) (k : Key) :
    w.tree.read w.directory (entryPath cache k).text =
      (s.find? k).elim (.error ⟨"open", (entryPath cache k).text, .notFound⟩) .ok := by
  have hresolve := h.resolve_entry k
  rcases h.folder with hfolder | ⟨hmissing, hnone⟩
  · rw [FileTree.walk_plain k.plainName_fileName hfolder] at hresolve
    have hnode := h.entries k
    rcases hfind : s.find? k with _ | f
    · rw [hfind] at hnode
      exact FileTree.read_missing hresolve hnode
    · rw [hfind] at hnode
      exact FileTree.read_ok_iff.mpr ⟨_, hresolve, hnode⟩
  · rw [FileTree.walk_missing hmissing] at hresolve
    rw [hnone k]
    exact FileTree.read_unresolved hresolve

theorem Caches.readEntry_run (h : w.Caches cache place s) (k : Key) :
    (readEntry (some cache) k : StateM World _).run w =
      ((s.get k).mapError (EntryError.message k), w) := by
  have hread := readFile_run w (entryPath cache k).text
  rw [h.read_entry k] at hread
  rw [readEntry, bind_run hread, Store.get]
  rcases s.find? k with _ | f
  · rfl
  · simp only [Option.elim]
    rcases f.read with e | entry
    · rfl
    · rfl

/-- What is put under a foreign name leaves the entries as they are. -/
theorem Caches.of_puts {w' : World} {q : List String} {name : String} {x : Stored}
    (h : w.Caches cache place s) (hdirectory : w'.directory = w.directory)
    (hputs : w.tree.Puts q (.file x) w'.tree) (hlast : q.getLast? = some name)
    (hname : Path.ForeignName name) : w'.Caches cache place s := by
  have hplace : place ≠ q := by
    rintro rfl
    exact h.place_last_ne hname hlast
  have hentry : ∀ k : Key, place ++ [k.fileName] ≠ q := by
    rintro k rfl
    exact hname.entry_last_ne place k hlast
  refine ⟨?_, h.room, ?_, fun k => ?_⟩
  · rw [hdirectory]
    exact hputs.resolve h.resolves
  · rw [hputs.other hplace]
    exact h.folder
  · rw [hputs.other (hentry k), h.entries k]

/-- Files under foreign names are as readable and as writable as before. -/
structure SparesForeign (w w' : World) : Prop where
  read : ∀ {p : Path} {name : String} {x : Stored}, Path.ForeignName name →
    w.tree.read w.directory (p.push name).text = .ok x →
    w'.tree.read w'.directory (p.push name).text = .ok x
  accepts : ∀ {p : Path} {name : String}, Path.ForeignName name →
    w.tree.Accepts w.directory (p.push name).text → w'.tree.Accepts w'.directory (p.push name).text

/-- Writing an entry puts it into the store. -/
theorem Caches.writeEntry_run (h : w.Caches cache place s) (k : Key) (e : Entry) :
    ∃ w', (writeEntry (some cache) k e : StateM World _).run w = (.ok (), w') ∧
      w'.Caches cache place (s.put k e) ∧ w.SparesForeign w' := by
  have hfolder : w.tree.node? place = some .directory ∨ w.tree.node? place = none :=
    h.folder.imp_right And.left
  obtain ⟨t, hmake, hmade⟩ := FileTree.makeDirectories_push plainName_kernels h.resolves hfolder
  -- with the directory there, the cache directory still holds the same store
  have hother : ∀ l : Key, place ++ [l.fileName] ≠ place := fun l => by simp
  have hcaches : World.Caches { w with tree := t } cache place s :=
    ⟨hmade.resolve h.resolves, h.room, .inl hmade.same, fun l => by
      rw [hmade.other (hother l), h.entries l]⟩
  have hresolve : t.resolve w.directory (entryPath cache k).text = .ok (place ++ [k.fileName]) := by
    rw [hcaches.resolve_entry k]
    exact FileTree.walk_plain k.plainName_fileName hmade.same
  have haccepts : t.Accepts w.directory (entryPath cache k).text := by
    refine ⟨_, hresolve, ?_, by rw [List.dropLast_concat]; exact hmade.same⟩
    rw [hcaches.entries k]
    rcases s.find? k with _ | f <;> simp
  obtain ⟨q, t', hq, hwrite, hputs⟩ := haccepts.write (.entry e.stamped)
  obtain rfl : place ++ [k.fileName] = q := Except.ok.inj (hresolve.symm.trans hq)
  refine ⟨{ w with tree := t' }, ?_, ⟨?_, h.room, .inl ?_, fun l => ?_⟩, ?_, ?_⟩
  · have hmaking : (Shell.makeDirectories (entryPath cache k).parent.text : StateM World _).run w =
        (.ok (), { w with tree := t }) := by
      rw [parent_entryPath]
      exact makeDirectories_run hmake
    rw [writeEntry, bind_run hmaking]
    exact writeFile_run hwrite
  · exact hputs.resolve (hmade.resolve h.resolves)
  · rw [hputs.other (hother k).symm, hmade.same]
  · rw [hputs.node, Store.find?_put]
    by_cases hl : l = k
    · simp [hl]
    · have hne : place ++ [l.fileName] ≠ place ++ [k.fileName] := by
        intro heq
        exact hl (Sha256.State.fileName_injective (List.cons.inj (List.append_cancel_left heq)).1)
      rw [if_neg hne, if_neg hl]
      exact hcaches.entries l
  · intro p name x hname hread
    have hmiddle := hmade.read_other hname.toPlainName (h.place_last_ne hname) hread
    exact hputs.read_other hname.toPlainName (hname.entry_last_ne place k) hmiddle
  · intro p name hname haccepts
    have hmiddle := hmade.accepts hname.toPlainName (fun _ => h.place_last_ne hname) haccepts
    exact hputs.accepts hname.toPlainName (fun hfile => by cases hfile) hmiddle

end World

end ShaderIL
