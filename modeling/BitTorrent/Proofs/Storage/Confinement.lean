import BitTorrent.Meta.Info
import BitTorrent.Storage.FileStorage
import BitTorrent.Text.Utf8
import BitTorrent.Proofs.Picker.Invariant

/-!
# Where the storage keeps a torrent's files

A file of a torrent is opened by its joined path, and the storage places that name under its
destination directory. Placing is lexical: `.` components are dropped, and each `..` leaves the
directory reached so far, the destination's own directories included.

* A name with no `..` component is kept at the destination followed by its components
  (`place_of_no_parent`), so inside the destination.
* Reading an info dictionary rejects a path element that is `..`, but not a `..` in the
  torrent's name: a single-file torrent named `../f` is accepted, and its file is kept beside
  the destination `dl`, not in it (`parent_name_escapes_dest`).
-/

namespace BitTorrent

namespace FileStorage

/-- Without `..`, resolving components only drops the `.` ones and goes down the others. -/
theorem normalize_of_no_parent (acc cs : PathParts) (h : ".." ∉ cs) :
    normalize acc cs = some (acc.reverse ++ cs.filter (· != ".")) := by
  induction cs generalizing acc with
  | nil => simp [normalize]
  | cons c cs ih =>
    have hc : c ≠ ".." := fun hc => h (hc ▸ List.mem_cons_self)
    have hcs : ".." ∉ cs := fun hin => h (List.mem_cons_of_mem c hin)
    by_cases hdot : c = "."
    · subst hdot
      simp [normalize, ih acc hcs]
    · simp [normalize, hdot, hc, ih (c :: acc) hcs]

/-- **A name without `..` stays inside the destination.** The storage keeps it at the
destination followed by the name's components, `.` ones left out. -/
theorem place_of_no_parent (s : FileStorage) (name : String) (h : ".." ∉ FileTree.split name) :
    s.place name = some (s.dest ++ (FileTree.split name).filter (· != ".")) := by
  unfold place
  rw [normalize_of_no_parent _ _ h, List.reverse_reverse]

/-- The name `a/./f` is kept at `dl/a/f` under `dl`. -/
theorem place_nested_name : ".." ∉ FileTree.split "a/./f" ∧
    (⟨["dl"], "dl"⟩ : FileStorage).place "a/./f" = some ["dl", "a", "f"] := by
  have hsplit : FileTree.split "a/./f" = ["a", ".", "f"] := by cbv
  have h : ".." ∉ FileTree.split "a/./f" := by
    rw [hsplit]
    decide
  refine ⟨h, ?_⟩
  rw [place_of_no_parent _ _ h, hsplit]
  decide

end FileStorage

namespace Info

/-- The info dictionary of a single-file torrent of four bytes named `../f`. -/
def parentNamed : List UInt8 :=
  "d6:lengthi4e4:name4:../f12:piece lengthi16384e6:pieces20:".toUTF8.toList ++
    List.replicate 20 0 ++ "e".toUTF8.toList

/-- The torrent named `../f` is accepted, and a storage under `dl` keeps its one file at
`f`, outside `dl`. -/
theorem parent_name_escapes_dest : ∃ info, Info.ofBytes parentNamed = .ok info ∧
    info.getFiles.map (fun f => (⟨["dl"], "dl"⟩ : FileStorage).place
      (Utf8.lossy (Path.join f.path))) = [some ["f"]] := by
  -- the dictionary is read by the kernel; placing the name splits a string, which `cbv` runs
  have hok : ((Info.ofBytes parentNamed).toOption.any fun info =>
      info.getFiles.map (fun f => Utf8.lossy (Path.join f.path)) == ["../f"]) = true := by
    decide +kernel
  obtain ⟨info, hinfo, hnames⟩ := Except.toOption_any_eq_true.1 hok
  have hnames : info.getFiles.map (fun f => Utf8.lossy (Path.join f.path)) = ["../f"] := by
    simpa using hnames
  refine ⟨info, hinfo, ?_⟩
  have hmap : (info.getFiles.map fun f => (⟨["dl"], "dl"⟩ : FileStorage).place
      (Utf8.lossy (Path.join f.path))) =
      (info.getFiles.map fun f => Utf8.lossy (Path.join f.path)).map
        (⟨["dl"], "dl"⟩ : FileStorage).place := by
    rw [List.map_map]
    rfl
  rw [hmap, hnames]
  cbv

end Info

end BitTorrent
