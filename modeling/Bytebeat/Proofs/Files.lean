import Bytebeat.CommandLine.Files

/-!
# What a disk is relied on for

A disk is relied on for reading files as they are, and for writing a file as a
whole or not at all (`Disk.Lawful`). Files in memory are such a disk for every
file but the one that is always empty (`Files.lawful_disk`): writing a file
takes no directory away, so that its path goes on leading to it.
-/

namespace Bytebeat.CommandLine

def decodeText : Except DiskError (List UInt8) → Except DiskError String
  | .error e => .error e
  | .ok bytes =>
    match String.fromUTF8? bytes.toByteArray with
    | some text => .ok text
    | none => .error .notText

/-- Files are read as they are and reading changes nothing; the file `out` is written as a whole,
or nothing is. -/
structure Disk.Lawful {σ : Type} (disk : Disk (StateM σ))
    (contents : σ → String → Except DiskError (List UInt8)) (out : String) : Prop where
  readText : ∀ path s, (disk.readText path).run s = (decodeText (contents s path), s)
  failed : ∀ bytes s e, ((disk.writeBytes out bytes).run s).1 = .error e →
    ((disk.writeBytes out bytes).run s).2 = s
  written : ∀ bytes s, ((disk.writeBytes out bytes).run s).1 = .ok () →
    contents ((disk.writeBytes out bytes).run s).2 out = .ok bytes

namespace Files

variable {files files' : Files} {path : String} {l d m : Location} {found : Found}
  {bytes : List UInt8}

/-! ## One more file -/

theorem lookup_put (files : Files) (l : Location) (bytes : List UInt8) :
    (files.put l bytes).lookup l = some bytes := by
  induction files with
  | nil => simp [put]
  | cons file files ih =>
    obtain ⟨k, old⟩ := file
    by_cases hk : k = l
    · simp [put, hk]
    · have hne : (l == k) = false := beq_false_of_ne (Ne.symm hk)
      simp [put, hk, List.lookup_cons, hne, ih]

theorem any_put (files : Files) (l : Location) (bytes : List UInt8) (p : Location → Bool) :
    (files.put l bytes).any (p ·.1) = (files.any (p ·.1) || p l) := by
  induction files with
  | nil => simp [put]
  | cons file files ih =>
    obtain ⟨k, old⟩ := file
    by_cases hk : k = l
    · subst hk
      cases hp : p k <;> simp [put, hp]
    · simp [put, hk, ih, Bool.or_assoc]

theorem isDirectory_put (files : Files) (l : Location) (bytes : List UInt8) (d : Location) :
    (files.put l bytes).isDirectory d = (files.isDirectory d || l.isBelow d) := by
  have hbelow := any_put files l bytes (·.isBelow d)
  obtain ⟨_ | _, _ | ⟨name, _ | ⟨up, names⟩⟩⟩ := d <;>
    simp only [isDirectory, hbelow, Bool.or_assoc, Bool.true_or]

theorem isBelow_self (l : Location) : l.isBelow l = false := by
  simp [Location.isBelow]

theorem find_eq_directory_iff :
    files.find d = .ok .directory ↔
      d.names.head?.any (maxNameBytes < ·.utf8ByteSize) = false ∧ d ≠ nullDevice ∧
        files.isDirectory d = true := by
  unfold find
  split
  · simp_all
  · split
    · simp_all
    · split
      · simp_all
      · cases files.lookup d <;> simp_all

theorem find_put_of_directory (hdir : files.find d = .ok .directory) (l : Location)
    (bytes : List UInt8) : (files.put l bytes).find d = .ok .directory := by
  obtain ⟨hname, hnull, hthere⟩ := find_eq_directory_iff.1 hdir
  refine find_eq_directory_iff.2 ⟨hname, hnull, ?_⟩
  rw [isDirectory_put, hthere, Bool.true_or]

theorem find_put (hfound : files.find l = .ok found) (hdir : found ≠ .directory)
    (hnull : l ≠ nullDevice) (bytes : List UInt8) :
    (files.put l bytes).find l = .ok (.file bytes) := by
  have hput : (files.put l bytes).isDirectory l = files.isDirectory l := by
    rw [isDirectory_put, isBelow_self, Bool.or_false]
  unfold find at hfound ⊢
  rw [hput, lookup_put]
  rw [if_neg hnull] at hfound ⊢
  split at hfound
  · cases hfound
  · rename_i hname
    rw [if_neg hname]
    split at hfound
    · cases hfound
      exact absurd rfl hdir
    · rename_i hnot
      rw [if_neg hnot]

/-! ## Paths -/

theorem walk_cons_cons_eq_ok_iff {name next : String} {names : List String} :
    files.walk d (name :: next :: names) = .ok m ↔
      files.find (d.step name) = .ok .directory ∧
        files.walk (d.step name) (next :: names) = .ok m := by
  rw [walk]
  · split <;> simp_all
  · exact List.cons_ne_nil next names

theorem eq_foldl_of_walk {names : List String} (h : files.walk d names = .ok m) :
    m = names.foldl Location.step d := by
  induction names generalizing d with
  | nil => cases h; rfl
  | cons name names ih =>
    cases names with
    | nil => cases h; rfl
    | cons next names => exact ih (walk_cons_cons_eq_ok_iff.1 h).2

theorem eq_location_of_follow (h : files.follow path = .ok m) : m = Path.location path := by
  unfold follow at h
  split at h
  · cases h
  · exact eq_foldl_of_walk h

/-- Since no directory goes away, what could be walked can be walked with one more file. -/
theorem walk_put {names : List String} (h : files.walk d names = .ok m) (l : Location)
    (bytes : List UInt8) : (files.put l bytes).walk d names = .ok m := by
  induction names generalizing d with
  | nil => exact h
  | cons name names ih =>
    cases names with
    | nil => exact h
    | cons next names =>
      obtain ⟨hdir, hrest⟩ := walk_cons_cons_eq_ok_iff.1 h
      exact walk_cons_cons_eq_ok_iff.2 ⟨find_put_of_directory hdir l bytes, ih hrest⟩

theorem follow_put (h : files.follow path = .ok m) (l : Location) (bytes : List UInt8) :
    (files.put l bytes).follow path = .ok m := by
  unfold follow at h ⊢
  split at h
  · cases h
  · rename_i hlength
    rw [if_neg hlength]
    exact walk_put h l bytes

/-! ## Reading what was written -/

theorem exists_of_write (h : files.write path bytes = .ok files') :
    ∃ l found, files.follow path = .ok l ∧ Path.endsInSlash path = false ∧
      files.find l = .ok found ∧ found ≠ .directory ∧
      files' = if l = nullDevice then files else files.put l bytes := by
  unfold write at h
  cases hfollow : files.follow path with
  | error e => rw [hfollow] at h; cases h
  | ok l =>
    cases hslash : Path.endsInSlash path with
    | true => rw [hfollow, hslash] at h; cases h
    | false =>
      cases hfound : files.find l with
      | error e => simp [hfollow, hslash, hfound, bind, Except.bind] at h
      | ok found =>
        refine ⟨l, found, rfl, rfl, hfound, ?_⟩
        simp only [hfollow, hslash, hfound, bind, Except.bind] at h
        cases found with
        | directory => cases h
        | nothing | file _ =>
          cases h
          exact ⟨nofun, rfl⟩

theorem read_eq_ok (hpath : files.follow path = .ok l) (hslash : Path.endsInSlash path = false)
    (hfile : files.find l = .ok (.file bytes)) : files.read path = .ok bytes := by
  simp only [read, hpath, hfile, hslash, bind, Except.bind]
  rfl

theorem read_of_write (hpath : Path.location path ≠ nullDevice)
    (h : files.write path bytes = .ok files') : files'.read path = .ok bytes := by
  obtain ⟨l, found, hfollow, hslash, hfound, hdir, rfl⟩ := exists_of_write h
  have hnull : l ≠ nullDevice := eq_location_of_follow hfollow ▸ hpath
  rw [if_neg hnull]
  exact read_eq_ok (follow_put hfollow l bytes) hslash (find_put hfound hdir hnull bytes)

theorem run_readText (files : Files) (path : String) :
    (disk.readText path).run files = (decodeText (files.read path), files) := by
  simp only [disk, decodeText, StateT.run_bind, StateT.run_get, pure_bind]
  cases files.read path with
  | error e => rfl
  | ok bytes =>
    dsimp only
    cases String.fromUTF8? bytes.toByteArray <;> rfl

theorem run_writeBytes (files : Files) (path : String) (bytes : List UInt8) :
    (disk.writeBytes path bytes).run files =
      match files.write path bytes with
      | .ok files' => (.ok (), files')
      | .error e => (.error e, files) := by
  simp only [disk, StateT.run_bind, StateT.run_get, pure_bind]
  cases files.write path bytes <;> rfl

/-- Files in memory can be relied on, but for the one that is always empty. -/
theorem lawful_disk {out : String} (hout : Path.location out ≠ nullDevice) :
    disk.Lawful read out where
  readText path files := run_readText files path
  failed bytes files e h := by
    rw [run_writeBytes] at h ⊢
    cases hwrite : files.write out bytes with
    | error e' => rfl
    | ok files' =>
      rw [hwrite] at h
      cases h
  written bytes files h := by
    rw [run_writeBytes] at h ⊢
    cases hwrite : files.write out bytes with
    | error e =>
      rw [hwrite] at h
      cases h
    | ok files' => exact read_of_write hout hwrite

end Files

end Bytebeat.CommandLine
