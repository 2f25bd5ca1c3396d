import Mathlib.Data.List.TakeDrop
import FileServer.CodecRoundTrip
import FileServer.LineBuffer

/-!
# The paths that fs.c puts together

`build_user_path` has 511 characters for a root of up to 255, a user of up to 63 and
a relpath of up to 255, and cuts the end off when they do not fit. The path that
`fs_download_path` returns has lost the slashes of its directory together with
those of the relpath, so it names an entry of the working directory.
-/

namespace FileServer

open LexicalPath Dialogue
set_option autoImplicit false

section UserPaths
variable {store : UserStore} {user : CString}

def wholeUserPath (store : UserStore) (user rel : CString) : CString :=
  userDirPath store user ++ slash :: rel

theorem length_wholeUserPath (store : UserStore) (user rel : CString) :
    (wholeUserPath store user rel).length =
      store.storageRoot.length + user.length + rel.length + 2 := by
  simp only [wholeUserPath, userDirPath, List.length_append, List.length_cons]
  omega

theorem buildUserPath_take (store : UserStore) (user rel : CString) :
    buildUserPath store user rel = (wholeUserPath store user rel).take 511 := by
  have hsplit : store.storageRoot ++ slash :: (user ++ slash :: rel) =
      wholeUserPath store user rel := by
    simp [wholeUserPath, userDirPath]
  rw [buildUserPath, hsplit]
  rfl

theorem buildUserPath_whole_iff (rel : CString) :
    buildUserPath store user rel = wholeUserPath store user rel ↔
      store.storageRoot.length + user.length + rel.length ≤ 509 := by
  rw [buildUserPath_take, List.take_eq_self_iff, length_wholeUserPath]
  omega

theorem buildUserPath_cut {rel : CString} (more : CString)
    (hfull : 509 ≤ store.storageRoot.length + user.length + rel.length) :
    buildUserPath store user (rel ++ more) = buildUserPath store user rel := by
  have hsplit : wholeUserPath store user (rel ++ more) = wholeUserPath store user rel ++ more := by
    simp [wholeUserPath]
  rw [buildUserPath_take, buildUserPath_take, hsplit, List.take_append_of_le_length]
  rw [length_wholeUserPath]
  omega

theorem delete_isFile : CommandType.delete = .upload ∨ CommandType.delete = .download ∨
    CommandType.delete = .delete := Or.inr (Or.inr rfl)

def deletion (user rel : CString) : FileJob where
  task :=
    ⟨{ taskCreate .delete ⟨1, 4⟩ [] [] [] [] 0 .high ⟨0, 0⟩ with username := user, path := rel },
      delete_isFile⟩
  works := true
  now := 0
  faults _ := none

/-- Two file commands of `user` on different relpaths work on different path strings. -/
def PathsDiffer (store : UserStore) (user : CString) : Prop :=
  ∀ i j : FileJob, i.task.username = user → j.task.username = user →
    i.task.path.length ≤ 255 → j.task.path.length ≤ 255 → i.task.path ≠ j.task.path →
    i.userPath store ≠ j.userPath store

theorem pathsDiffer_of_fits (hfits : store.storageRoot.length + user.length ≤ 254) :
    PathsDiffer store user := by
  intro i j hi hj hilen hjlen hne heq
  rw [FileJob.userPath, FileJob.userPath, hi, hj,
    (buildUserPath_whole_iff i.task.path).mpr (by omega),
    (buildUserPath_whole_iff j.task.path).mpr (by omega)] at heq
  exact hne (List.cons.inj (List.append_cancel_left heq)).2

theorem not_pathsDiffer_of_long (hlong : 254 < store.storageRoot.length + user.length) :
    ¬ PathsDiffer store user := by
  intro hdiffer
  let rel : CString := List.replicate 254 97
  have hlen : rel.length = 254 := List.length_replicate
  have hcut : ∀ c : Byte, buildUserPath store user (rel ++ [c]) = buildUserPath store user rel := by
    intro c
    apply buildUserPath_cut
    omega
  refine hdiffer (deletion user (rel ++ [97])) (deletion user (rel ++ [98])) rfl rfl ?_ ?_ ?_ ?_
  · change (rel ++ [97]).length ≤ 255
    rw [List.length_append, hlen]
    decide
  · change (rel ++ [98]).length ≤ 255
    rw [List.length_append, hlen]
    decide
  · intro h
    have hlast := List.append_cancel_left (h : rel ++ [97] = rel ++ [98])
    simp at hlast
  · exact (hcut 97).trans (hcut 98).symm

/-- Which paths are whole, and for which users no two of their paths fall together. -/
theorem user_paths_whole_iff (store : UserStore) (user : CString) :
    (∀ rel, buildUserPath store user rel = wholeUserPath store user rel ↔
      store.storageRoot.length + user.length + rel.length ≤ 509) ∧
    (PathsDiffer store user ↔ store.storageRoot.length + user.length ≤ 254) := by
  refine ⟨buildUserPath_whole_iff, ?_, pathsDiffer_of_fits⟩
  intro hdiffer
  by_contra hlong
  exact not_pathsDiffer_of_long (by omega) hdiffer

theorem long_paths_fall_together :
    let store := userStoreCreate true [] (List.replicate 200 114)
    let user : CString := List.replicate 60 117
    let rel : CString := List.replicate 254 97
    buildUserPath store user (rel ++ [97]) ≠ wholeUserPath store user (rel ++ [97]) ∧
      rel ++ [97] ≠ rel ++ [98] ∧
      buildUserPath store user (rel ++ [97]) = buildUserPath store user (rel ++ [98]) := by
  decide +kernel

end UserPaths

def lastComponent (path : CString) : CString := (splitSlash path).getLast (splitSlash_ne_nil path)

/-- A path that lies directly in the directory that `fs_download_path` makes, under a
name without the characters it replaces. -/
def InTempDir (cwd : List CString) (path : CString) : Prop :=
  isChild (locate cwd tempDir) (locate cwd path) ∧ ∀ c ∈ lastComponent path, c ∉ cstr "/\\:*?\"<>|"

section TempPaths
variable {cwd : List CString} {store : UserStore} {job : FileJob}

theorem replaceProblematic_notMem (c : Byte) : replaceProblematic c ∉ cstr "/\\:*?\"<>|" := by
  unfold replaceProblematic
  split
  · decide
  · assumption

theorem tempPath_notMem {user relpath : CString} {now : Int} {c : Byte}
    (h : c ∈ tempPath user relpath now) : c ∉ cstr "/\\:*?\"<>|" := by
  obtain ⟨b, -, rfl⟩ := List.mem_map.mp h
  exact replaceProblematic_notMem b

theorem locate_singleName (cwd : List CString) {path : CString} (h : SingleName path) :
    locate cwd path = ⟨true, 0, cwd ++ [path]⟩ := by
  obtain ⟨c, cs, rfl⟩ := List.exists_cons_of_ne_nil h.1
  have hhead : ¬ (c :: cs).head? = some slash := by
    intro hslash
    obtain rfl := Option.some.inj hslash
    exact h.2.1 List.mem_cons_self
  rw [locate, origin, if_neg hhead, h.components]
  rfl

theorem isChild_tempDir_iff {path : CString} (h : SingleName path) :
    isChild (locate cwd tempDir) (locate cwd path) ↔
      cwd = [cstr "tmp", cstr "os_lab7_downloads"] := by
  have hdir : locate cwd tempDir = ⟨true, 0, [cstr "tmp", cstr "os_lab7_downloads"]⟩ := rfl
  have hup : (locate cwd path).up = ⟨true, 0, cwd⟩ := by
    rw [locate_singleName cwd h, Place.up, if_neg (by simp), List.dropLast_concat]
  have hnames : (locate cwd path).names ≠ [] := by
    rw [locate_singleName cwd h]
    simp
  rw [isChild, hup, hdir, and_iff_right hnames]
  simp

theorem inTempDir_iff {path : CString} (hhead : path.head? = some 95)
    (hplain : ∀ c ∈ path, c ∉ cstr "/\\:*?\"<>|") :
    InTempDir cwd path ↔ cwd = [cstr "tmp", cstr "os_lab7_downloads"] := by
  have hslash : slash ∉ path := fun h => hplain slash h (by decide)
  have hsingle : SingleName path := by
    refine ⟨?_, hslash, ?_, ?_⟩
    · rintro rfl
      contradiction
    · rintro rfl
      exact absurd hhead (by decide)
    · rintro rfl
      exact absurd hhead (by decide)
  have hlast : lastComponent path = path := by
    simp only [lastComponent, splitSlash_of_notMem hslash, List.getLast_singleton]
  rw [InTempDir, hlast, isChild_tempDir_iff hsingle, and_iff_left hplain]

/-- What `fs_download_path` returns, once it has succeeded. -/
def ReturnsTempPath (temp : CString) (outLen : Nat) : DownloadStage → Prop
  | .done (.ok path) _ => path = temp ∧ temp.length < outLen
  | .unlinkTemp _ => False
  | _ => True

theorem fsDownloadResume_returns {outLen : Nat} {errno : CString} {a : CallAnswer}
    {stage : DownloadStage} (h : ReturnsTempPath job.tempPath outLen stage) :
    ReturnsTempPath job.tempPath outLen (fsDownloadResume outLen store job errno a stage) := by
  cases stage with
  | chmod =>
    simp only [fsDownloadResume]
    split
    · trivial
    · rename_i hfits
      exact ⟨rfl, Nat.lt_of_not_le hfits⟩
  | unlinkTemp content => exact absurd h id
  | aborted => trivial
  | done result content => exact h
  | closeFile failure => cases failure <;> trivial
  | abandon text => trivial
  | remove err => trivial
  | removeLong => trivial
  | _ =>
    simp only [fsDownloadResume, downloadResume]
    split <;> trivial

theorem fsDownload_returns {outLen : Nat} {faults : Nat → Option Fault} {files mem : Files}
    {trace : List DownloadEvent} {stage : DownloadStage}
    (h : FsDownloadRuns cwd store job outLen faults files trace stage mem) :
    ReturnsTempPath job.tempPath outLen stage := by
  obtain ⟨errno, errno', hrun⟩ := h
  apply hrun.invariant (I := fun _ s _ => ReturnsTempPath job.tempPath outLen s.2)
  · exact trivial
  · intro trace s mem r fault hstage _
    exact fsDownloadResume_returns hstage

theorem tempPath_text (user relpath : CString) (now : Int) (pad : List Byte) :
    (cString (tempPath user relpath now ++ 0 :: pad)).head? = some 95 ∧
      ∀ c ∈ cString (tempPath user relpath now ++ 0 :: pad), c ∉ cstr "/\\:*?\"<>|" := by
  rw [cString_append_zero]
  refine ⟨rfl, ?_⟩
  intro c hc
  exact tempPath_notMem ((List.takeWhile_sublist _).subset hc)

theorem fsDownload_out {outLen : Nat} {faults : Nat → Option Fault} {files mem : Files}
    {outPath out : List Byte} {trace : List DownloadEvent}
    (h : FsDownloadReturns cwd store job outLen faults files outPath trace true out mem) :
    (cString out).head? = some 95 ∧ ∀ c ∈ cString out, c ∉ cstr "/\\:*?\"<>|" := by
  obtain ⟨stage, hruns, hstage⟩ := h
  have hpath := fsDownload_returns hruns
  cases stage with
  | done result content =>
    cases result with
    | error err => cases hstage
    | ok path =>
      obtain ⟨rfl, hfits⟩ := hpath
      obtain ⟨-, rfl⟩ := Prod.mk.inj (Option.some.inj hstage)
      obtain ⟨pad, hpad⟩ := strncpyPad_of_fits (outPath.drop outLen) (Nat.le_sub_one_of_lt hfits)
      rw [hpad]
      exact tempPath_text job.task.username job.task.path job.now pad
  | _ => contradiction

theorem aliceDownload_ready :
    DownloadReady [cstr "srv"] aliceAndBob aliceDownload 512 rootWithFile (cstr "old") where
  sound := sound_of_entries (by decide +kernel)
  passes := by decide +kernel
  stored := by decide +kernel
  temp := by decide +kernel
  fits := by decide +kernel
  apart := by decide +kernel

theorem aliceDownload_returns : ∃ trace out mem,
    FsDownloadReturns [cstr "srv"] aliceAndBob aliceDownload 512 (fun _ => none) rootWithFile []
      trace true out mem := by
  obtain ⟨⟨trace, ok, out, mem, hreturns⟩, hyields⟩ := aliceDownload_ready.yields []
  obtain ⟨rfl, -⟩ := hyields _ _ _ _ hreturns
  exact ⟨trace, out, mem, hreturns⟩

/-- The returned path is in the directory only if that is where the server runs. -/
theorem download_in_tempDir_iff (cwd : List CString) (store : UserStore) (job : FileJob)
    (outLen : Nat) (faults : Nat → Option Fault) (files : Files) (outPath : List Byte)
    (trace : List DownloadEvent) (out : List Byte) (mem : Files)
    (hreturns : FsDownloadReturns cwd store job outLen faults files outPath trace true out mem) :
    InTempDir cwd (cString out) ↔ cwd = [cstr "tmp", cstr "os_lab7_downloads"] := by
  obtain ⟨hhead, hplain⟩ := fsDownload_out hreturns
  exact inTempDir_iff hhead hplain

theorem alice_download_directory : ∃ trace out mem,
    FsDownloadReturns [cstr "srv"] aliceAndBob aliceDownload 512 (fun _ => none) rootWithFile []
      trace true out mem ∧
    (InTempDir [cstr "srv"] (cString out) ↔
      [cstr "srv"] = [cstr "tmp", cstr "os_lab7_downloads"]) := by
  obtain ⟨trace, out, mem, hreturns⟩ := aliceDownload_returns
  exact ⟨trace, out, mem, hreturns, download_in_tempDir_iff [cstr "srv"] aliceAndBob aliceDownload 512
    _ rootWithFile [] trace out mem hreturns⟩

theorem alice_download_elsewhere : ∃ trace out mem,
    FsDownloadReturns [cstr "srv"] aliceAndBob aliceDownload 512 (fun _ => none) rootWithFile []
      trace true out mem ∧
    ¬ InTempDir [cstr "srv"] (cString out) := by
  obtain ⟨trace, out, mem, hreturns⟩ := aliceDownload_returns
  refine ⟨trace, out, mem, hreturns, ?_⟩
  obtain ⟨hhead, hplain⟩ := fsDownload_out hreturns
  rw [inTempDir_iff hhead hplain]
  decide

end TempPaths

end FileServer
