import FileServer.FsDownload
import FileServer.UploadFaults

/-!
# The stored form of a file and back (crypto.c, fs.c)

What `fs_upload` stores of a file and what `fs_download_path` makes of it again. Both
loops start the key anew with every block of 8192 bytes, so they cut a file alike
and undo each other, in either order.
-/

namespace FileServer

open LexicalPath Dialogue
set_option autoImplicit false

def cipherKey : List Byte := cstr "MySecretKey123"

theorem codeFile_getElem? (data : List Byte) (i : Nat) :
    (codeFile data)[i]? = data[i]?.map (· ^^^ cipherKey.getD (i % 8192 % 14) 0) := by
  rw [codeFile, List.getElem?_mapIdx]
  rfl

def DownloadStage.remaining (length : Nat) : DownloadStage → Nat
  | .openFile => 4 * length + 22
  | .seek _ => 4 * length + 21
  | .tell _ => 4 * length + 20
  | .mkdir _ => 4 * length + 19
  | .openTemp _ => 4 * length + 18
  | .read i _ => 4 * (length - i.offset) + 8
  | .decode i _ _ => 4 * (length - i.offset) + 10
  | .write i _ _ => 4 * (length - i.offset) + 9
  | .closeTemp _ => 5
  | .closeFile _ => 4
  | .chmod => 3
  | .remove _ | .removeLong | .unlinkTemp _ => 2
  | .abandon _ => 1
  | .aborted | .done _ _ => 0

def DownloadStage.clean (k : Nat) : DownloadStage → Prop
  | .openFile | .chmod | .done (.ok _) _ => True
  | .seek i | .tell i | .mkdir i | .openTemp i => i = openedOn (some k)
  | .read i o | .decode i o _ | .write i o _ =>
    i.inode = some k ∧ i.error = false ∧ ∃ m, o.inode = some m
  | .closeTemp failure | .closeFile failure => failure = none
  | _ => False

section Clean
variable {cwd : List CString} {store : UserStore} {job : FileJob} {files mem : Files}
  {errno : CString} {outLen k : Nat} {src : List Byte} {stage : DownloadStage} {r : Request}

def BeforeTemp (cwd : List CString) (files mem : Files) : DownloadStage → Prop
  | .openFile | .seek _ | .tell _ | .mkdir _ => mem = files
  | .openTemp _ => mem = withTempDirectory cwd files
  | _ => True

theorem fsDownloadResume_clean (hr : downloadRequest store job stage = some r)
    (hpasses : files.barred (origin cwd (job.userPath store)) (components (job.userPath store)) =
      none)
    (hk : files.node (locate cwd (job.userPath store)) = .file k)
    (htemp : TempOpens cwd job.tempPath files) (hlength : job.tempPath.length < outLen)
    (hbefore : BeforeTemp cwd files mem stage) (h : stage.clean k) :
    (fsDownloadResume outLen store job errno (perform cwd none mem r).1 stage).clean k ∧
      BeforeTemp cwd files (perform cwd none mem r).2
        (fsDownloadResume outLen store job errno (perform cwd none mem r).1 stage) := by
  cases stage with
  | openFile =>
    obtain rfl : mem = files := hbefore
    obtain rfl := Option.some.inj hr
    have hopened := fopenRead_of_node hpasses (Or.inr ⟨k, rfl, hk⟩)
    simp only [fsDownloadResume, downloadResume, perform, respond, hopened]
    exact ⟨rfl, rfl⟩
  | seek i =>
    obtain rfl := Option.some.inj hr
    exact ⟨h, hbefore⟩
  | tell i =>
    obtain rfl := Option.some.inj hr
    exact ⟨h, hbefore⟩
  | mkdir i =>
    obtain rfl : mem = files := hbefore
    obtain rfl := Option.some.inj hr
    have hok := htemp.directory
    simp only [fsDownloadResume, downloadResume, perform_fst, respond, if_pos hok]
    exact ⟨h, rfl⟩
  | openTemp i =>
    obtain rfl : mem = withTempDirectory cwd files := hbefore
    obtain rfl : i = openedOn (some k) := h
    obtain rfl := Option.some.inj hr
    rcases fopenWrite_cases cwd (withTempDirectory cwd files) job.tempPath with
      ⟨errno, heq⟩ | ⟨-, heq⟩ | ⟨m, -, heq⟩
    · have hok := htemp.file
      rw [heq] at hok
      contradiction
    · simp only [fsDownloadResume, downloadResume, perform_fst, respond, heq]
      exact ⟨⟨rfl, rfl, _, rfl⟩, trivial⟩
    · simp only [fsDownloadResume, downloadResume, perform_fst, respond, heq]
      exact ⟨⟨rfl, rfl, _, rfl⟩, trivial⟩
  | read i o =>
    obtain rfl := Option.some.inj hr
    obtain ⟨hinode, herror, hout⟩ := h
    have hclean : (fread cwd mem (job.userPath store) none i).handle.error = false := by
      rw [← Bool.not_eq_true, fread_error_iff hinode]
      simp [herror]
    rw [perform_fread]
    simp only [fsDownloadResume, downloadResume, hclean]
    split
    · exact ⟨rfl, trivial⟩
    · exact ⟨⟨fread_inode.trans hinode, hclean, hout⟩, trivial⟩
  | decode i o block =>
    obtain rfl := Option.some.inj hr
    exact ⟨h, trivial⟩
  | write i o block =>
    obtain rfl := Option.some.inj hr
    obtain ⟨hinode, herror, m, hm⟩ := h
    have hok : (perform cwd none mem ⟨job.tempPath, .fwrite o (decodeData block)⟩).1.error = none :=
      (fwrite_error_iff hm).mpr rfl
    simp only [fsDownloadResume, downloadResume, if_pos hok]
    refine ⟨⟨hinode, herror, m, ?_⟩, trivial⟩
    simp [perform_fst, respond, fwrite, hm]
  | closeTemp failure =>
    obtain rfl : failure = none := h
    obtain rfl := Option.some.inj hr
    exact ⟨rfl, trivial⟩
  | closeFile failure =>
    obtain rfl : failure = none := h
    exact ⟨trivial, trivial⟩
  | chmod =>
    simp only [fsDownloadResume, if_neg (Nat.not_le.mpr hlength)]
    exact ⟨trivial, trivial⟩
  | done result content => contradiction
  | _ => exact absurd h id

theorem fsDownloadResume_remaining {fault : Option Fault}
    (hr : downloadRequest store job stage = some r)
    (hsrc : (mem.view (locate cwd (job.userPath store))).inodes[k]? = some src)
    (h : stage.clean k) :
    (fsDownloadResume outLen store job errno (perform cwd fault mem r).1 stage).remaining
      src.length < stage.remaining src.length := by
  cases stage with
  | aborted => contradiction
  | openTemp i =>
    obtain rfl : i = openedOn (some k) := h
    simp only [fsDownloadResume, downloadResume]
    split <;> simp only [DownloadStage.remaining, openedOn] <;> omega
  | read i o =>
    obtain rfl := Option.some.inj hr
    have hread : (fread cwd mem (job.userPath store) fault i).handle.offset =
        i.offset + (fread cwd mem (job.userPath store) fault i).bytes.length ∧
        (fread cwd mem (job.userPath store) fault i).bytes.length ≤ src.length - i.offset :=
      fread_offset h.1 hsrc
    rw [perform_fread]
    simp only [fsDownloadResume, downloadResume]
    split
    · simp only [DownloadStage.remaining]
      omega
    · rename_i hne
      have hpos := List.length_pos_of_ne_nil hne
      simp only [DownloadStage.remaining, hread.1]
      omega
  | closeFile failure =>
    obtain rfl : failure = none := h
    simp only [fsDownloadResume, downloadResume, DownloadStage.remaining]
    omega
  | chmod =>
    simp only [fsDownloadResume]
    split <;> simp only [DownloadStage.remaining] <;> omega
  | done result content => contradiction
  | remove err => exact absurd h id
  | removeLong => exact absurd h id
  | unlinkTemp content => exact absurd h id
  | abandon text => exact absurd h id
  | _ =>
    simp only [fsDownloadResume, downloadResume]
    split <;> simp only [DownloadStage.remaining] <;> omega

end Clean

structure UploadReady (cwd : List CString) (store : UserStore) (job : FileJob) (files : Files)
    (data : List Byte) : Prop where
  sound : files.Sound
  opens : FsUploadOpens cwd store job files
  source : files.contentAt (locate cwd job.task.tmpfile) = some data
  apart : locate cwd job.task.tmpfile ≠ locate cwd (job.userPath store)

/-- `fs_download_path` can open its files, the stored file holds `data`, and the buffer
has room for the name. -/
structure DownloadReady (cwd : List CString) (store : UserStore) (job : FileJob) (outLen : Nat)
    (files : Files) (data : List Byte) : Prop where
  sound : files.Sound
  passes : files.barred (origin cwd (job.userPath store)) (components (job.userPath store)) = none
  stored : files.contentAt (locate cwd (job.userPath store)) = some data
  temp : TempOpens cwd job.tempPath files
  fits : job.tempPath.length < outLen
  apart : locate cwd (job.userPath store) ≠ locate cwd job.tempPath

/-- `fs_upload` returns, and leaves `stored` at its destination, when no call fails. -/
def UploadStores (cwd : List CString) (store : UserStore) (job : FileJob) (files : Files)
    (stored : List Byte) : Prop :=
  (∃ trace ok mem, FsUploadReturns cwd store job (fun _ => none) files trace ok mem) ∧
  ∀ trace ok mem, FsUploadReturns cwd store job (fun _ => none) files trace ok mem →
    ok = true ∧ mem.contentAt (locate cwd (job.userPath store)) = some stored

/-- `fs_download_path` returns, and leaves `data` in its temporary file, when no call fails. -/
def DownloadYields (cwd : List CString) (store : UserStore) (job : FileJob) (outLen : Nat)
    (files : Files) (data : List Byte) : Prop :=
  ∀ outPath,
    (∃ trace ok out mem,
      FsDownloadReturns cwd store job outLen (fun _ => none) files outPath trace ok out mem) ∧
    ∀ trace ok out mem,
      FsDownloadReturns cwd store job outLen (fun _ => none) files outPath trace ok out mem →
      ok = true ∧ mem.contentAt (locate cwd job.tempPath) = some data

section Whole
variable {cwd : List CString} {store : UserStore} {job : FileJob} {outLen : Nat} {files : Files}
  {data : List Byte}

theorem UploadReady.stores (h : UploadReady cwd store job files data) :
    UploadStores cwd store job files (codeFile data) := by
  obtain ⟨k, hk, -⟩ := contentAt_file h.source
  have hcompletes : UploadCompletes cwd store job files (fun _ => none) data :=
    completes_of_noWriteFails h.sound h.opens h.source h.apart onlyCopyFails_none
      fun _ _ _ _ _ _ => rfl
  refine ⟨hcompletes.1, ?_⟩
  intro trace ok mem hreturns
  obtain ⟨stage, hruns, hstage⟩ := hreturns
  have hquiet : NoFault trace := by
    obtain ⟨errno, errno', hrun⟩ := hruns
    exact hrun.noFault
  have hover : stage.over := Or.inl (by rw [hstage]; rfl)
  obtain ⟨hok, hcontent, -⟩ := hcompletes.2 _ _ _ hruns hover
  have htrue := hok.mpr hquiet
  rw [hstage] at htrue
  exact ⟨Option.some.inj htrue, hcontent (hok.mpr hquiet)⟩

theorem DownloadReady.yields (h : DownloadReady cwd store job outLen files data) :
    DownloadYields cwd store job outLen files (codeFile data) := by
  intro outPath
  obtain ⟨k, hk, hcontent⟩ := contentAt_file h.stored
  have hclean : ∀ {errno trace s mem}, Run (fsDownloadPath store job outLen) (perform cwd)
      (fun _ => none) (errno, .openFile) files trace s mem →
      s.2.clean k ∧ BeforeTemp cwd files mem s.2 := by
    intro errno trace s mem hrun
    refine hrun.invariant (I := fun trace s mem => NoFault trace →
      s.2.clean k ∧ BeforeTemp cwd files mem s.2) ?_ ?_ hrun.noFault
    · exact fun _ => ⟨trivial, rfl⟩
    · rintro trace ⟨errno, stage⟩ mem r fault ih hr hquiet
      obtain ⟨hbefore, hnone⟩ := (noFault_append _ _).mp hquiet
      obtain rfl : fault = none := hnone
      obtain ⟨hstage, hmem⟩ := ih hbefore
      exact fsDownloadResume_clean hr h.passes hk h.temp h.fits hmem hstage
  have hless : ∀ trace s mem r, Run (fsDownloadPath store job outLen) (perform cwd)
      (fun _ => none) ([], .openFile) files trace s mem →
      (fsDownloadPath store job outLen).request s = some r →
      ((fsDownloadPath store job outLen).resume (perform cwd none mem r).1 s).2.remaining
        data.length < s.2.remaining data.length := by
    rintro trace ⟨errno, stage⟩ mem r hrun hr
    obtain ⟨-, -, hothers⟩ := fsDownload_holds h.sound h.apart ⟨_, _, hrun⟩
    apply fsDownloadResume_remaining hr _ (hclean hrun).1
    rw [(hothers _ h.apart).source h.stored]
    exact hcontent
  constructor
  · obtain ⟨trace, ⟨errno, stage⟩, mem, hrun, hend⟩ :=
      Run.nil.ends (fun s : CString × DownloadStage => s.2.remaining data.length) hless
    have hruns : FsDownloadRuns cwd store job outLen (fun _ => none) files trace stage mem :=
      ⟨_, _, hrun⟩
    cases stage with
    | done result content =>
      cases result with
      | ok path => exact ⟨trace, true, _, mem, _, hruns, rfl⟩
      | error err => exact ⟨trace, false, _, mem, _, hruns, rfl⟩
    | aborted => exact absurd (hclean hrun).1 id
    | _ => contradiction
  · intro trace ok out mem hreturns
    obtain ⟨stage, hruns, hstage⟩ := hreturns
    obtain ⟨hholds, -, -⟩ := fsDownload_holds h.sound h.apart hruns
    obtain ⟨errno, errno', hrun⟩ := hruns
    have hdone := (hclean hrun).1
    cases stage with
    | done result content =>
      cases result with
      | ok path =>
        obtain ⟨rfl, rfl⟩ := Prod.mk.inj (Option.some.inj hstage)
        obtain ⟨-, src, hsrc, hyield⟩ := hholds
        rw [h.stored] at hsrc
        obtain rfl := Option.some.inj hsrc
        exact ⟨rfl, hyield⟩
      | error err => exact absurd hdone id
    | _ => contradiction

end Whole

/-- The stored form of `data` has its length and byte `i` combined with the key at
`(i mod 8192) mod 14`, and its download is `data` again; and a download of the stored bytes
`data` that is uploaded again is stored as `data`. -/
theorem codec_round_trips (cwd : List CString) (store : UserStore) (data : List Byte) :
    (∀ job files, UploadReady cwd store job files data →
      ∃ s, UploadStores cwd store job files s ∧ s.length = data.length ∧
        (∀ i, s[i]? = data[i]?.map (· ^^^ cipherKey.getD (i % 8192 % 14) 0)) ∧
        ∀ down outLen files', DownloadReady cwd store down outLen files' s →
          DownloadYields cwd store down outLen files' data) ∧
    ∀ down outLen files, DownloadReady cwd store down outLen files data →
      ∃ d, DownloadYields cwd store down outLen files d ∧
        ∀ job files', UploadReady cwd store job files' d → UploadStores cwd store job files' data := by
  constructor
  · intro job files hready
    refine ⟨codeFile data, hready.stores, length_codeFile data, codeFile_getElem? data, ?_⟩
    intro down outLen files' hdown
    have hyields := hdown.yields
    rwa [codeFile_codeFile] at hyields
  · intro down outLen files hready
    refine ⟨codeFile data, hready.yields, ?_⟩
    intro job files' hjob
    have hstores := hjob.stores
    rwa [codeFile_codeFile] at hstores

def twoBlocks : List Byte := List.replicate 8193 65

def rootAndBlocks : Files := rootAndTmp.set (locate [] (cstr "tmp/s")) ⟨.file 0, [twoBlocks]⟩

def rootWithBlocks : Files :=
  rootWithFile.set (locate [] (cstr "srv/storage/alice/x")) ⟨.file 0, [codeFile twoBlocks]⟩

theorem contentAt_set_file {files : Files} {l : Location} {data : List Byte} (hl : l.names ≠ []) :
    (files.set l ⟨.file 0, [data]⟩).contentAt l = some data := by
  rw [Files.contentAt, node_set, if_neg hl, if_pos rfl, view_set, if_pos rfl]
  rfl

theorem uploadReady_blocks :
    UploadReady [cstr "srv"] aliceAndBob (aliceUpload "/tmp/s") rootAndBlocks twoBlocks where
  sound := sound_of_entries (by decide +kernel)
  opens := ⟨by decide +kernel, by decide +kernel, by decide +kernel⟩
  source := by
    have hplace : locate [cstr "srv"] (aliceUpload "/tmp/s").task.tmpfile =
        locate [] (cstr "tmp/s") := by decide +kernel
    rw [hplace]
    exact contentAt_set_file (by decide +kernel)
  apart := by decide +kernel

theorem downloadReady_blocks :
    DownloadReady [cstr "srv"] aliceAndBob aliceDownload 512 rootWithBlocks (codeFile twoBlocks) where
  sound := sound_of_entries (by decide +kernel)
  passes := by decide +kernel
  stored := by
    have hplace : locate [cstr "srv"] (aliceDownload.userPath aliceAndBob) =
        locate [] (cstr "srv/storage/alice/x") := by decide +kernel
    rw [hplace]
    exact contentAt_set_file (by decide +kernel)
  temp := by decide +kernel
  fits := by decide +kernel
  apart := by decide +kernel

theorem two_blocks_round_trip :
    UploadReady [cstr "srv"] aliceAndBob (aliceUpload "/tmp/s") rootAndBlocks twoBlocks ∧
    DownloadReady [cstr "srv"] aliceAndBob aliceDownload 512 rootWithBlocks (codeFile twoBlocks) ∧
    UploadStores [cstr "srv"] aliceAndBob (aliceUpload "/tmp/s") rootAndBlocks (codeFile twoBlocks) ∧
    (codeFile twoBlocks)[8191]? = some (65 ^^^ 121) ∧
    (codeFile twoBlocks)[8192]? = some (65 ^^^ 77) ∧
    DownloadYields [cstr "srv"] aliceAndBob aliceDownload 512 rootWithBlocks twoBlocks := by
  obtain ⟨s, hstores, -, hbytes, hyields⟩ :=
    (codec_round_trips [cstr "srv"] aliceAndBob twoBlocks).1 _ _ uploadReady_blocks
  have hs : s = codeFile twoBlocks := by
    apply List.ext_getElem?
    intro i
    rw [hbytes, codeFile_getElem?]
  rw [hs] at hstores hbytes hyields
  have hbyte : ∀ i, i < 8193 → twoBlocks[i]? = some 65 := fun i hi =>
    List.getElem?_replicate_of_lt hi
  refine ⟨uploadReady_blocks, downloadReady_blocks, hstores, ?_, ?_,
    hyields _ _ _ downloadReady_blocks⟩
  · rw [hbytes, hbyte 8191 (by omega)]
    rfl
  · rw [hbytes, hbyte 8192 (by omega)]
    rfl

end FileServer
