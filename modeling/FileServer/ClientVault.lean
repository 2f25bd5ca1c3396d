import FileServer.ClientUpload
import FileServer.CommandRoundTrip
import FileServer.FileStore
import FileServer.TaskDirectories

/-!
# An upload from one program to the other (client_program.c, client.c, worker.c, fs.c)

The client copies its file to a temporary one, sends the UPLOAD command and removes the
temporary file at the answer; the server reads the command and moves the temporary file,
coded, to the storage root. Where the command fits, what the client has read of its file
is then the file of the user, and the temporary file is gone.
-/

namespace FileServer

open LexicalPath Dialogue ClientProgram
set_option autoImplicit false

section Client
variable {clientCwd cwd : List CString} {filename tmpfile : CString} {files mem : Files} {total : Nat}
variable {trace : List CopyEvent}

theorem uploadTmpfile_head (filename : CString) (now : Int) :
    (uploadTmpfile filename now).head? = some slash := by
  unfold uploadTmpfile snprintf
  rfl

theorem origin_absolute (h : tmpfile.head? = some slash) : origin cwd tmpfile = ⟨true, 0, []⟩ := by
  rw [origin, if_pos h]

theorem locate_absolute (h : tmpfile.head? = some slash) : locate cwd tmpfile = locate clientCwd tmpfile := by
  rw [locate, locate, origin_absolute h, origin_absolute h]

theorem sourceBytes_copied {src : List Byte} {readsAll : Prop} (habsolute : tmpfile.head? = some slash)
    (h : CopiedTo clientCwd tmpfile mem src total readsAll) :
    sourceBytes cwd mem tmpfile = some (src.take total) := by
  obtain ⟨k, hk⟩ := h.opens.file
  have hne : tmpfile ≠ [] := by
    rintro rfl
    contradiction
  have hopens : (fopenRead clientCwd mem tmpfile).error = none := by
    unfold fopenRead
    rw [h.opens.passes, hk]
    rfl
  have hsame : fopenRead cwd mem tmpfile = fopenRead clientCwd mem tmpfile := by
    unfold fopenRead
    rw [locate_absolute habsolute, origin_absolute habsolute, origin_absolute habsolute]
  rw [sourceBytes, if_neg (by simp [hne, hsame, hopens]), locate_absolute habsolute]
  exact h.content

theorem ClientProgram.CopyState.outside {store : UserStore} {stage : CopyStage} (databaseFiles : List CString)
    (h : CopyState clientCwd filename tmpfile files trace stage mem) (hroot : RootOpen cwd store files)
    (houtside : ¬ Inside (rootLocation cwd store) (locate clientCwd tmpfile)) :
    Outside cwd databaseFiles store files mem := by
  refine ⟨h.sound, rootOpen_of_dirs h.dirs hroot, ?_⟩
  intro l hl _
  exact h.others l (ne_of_outside hl houtside)

theorem unlink_clears (hpasses : mem.barred (origin cwd tmpfile) (components tmpfile) = none)
    (hnode : mem.node (locate cwd tmpfile) ≠ .dir) :
    (perform cwd none mem ⟨tmpfile, .unlink⟩).2.node (locate cwd tmpfile) = .absent := by
  cases hcase : mem.node (locate cwd tmpfile) with
  | dir => exact absurd hcase hnode
  | absent =>
    have hkept : perform cwd none mem ⟨tmpfile, .unlink⟩ = (failed enoent, mem) := by
      simp only [perform, respond, unlink, hpasses, hcase]
    rw [hkept, hcase]
  | file k =>
    rw [unlink_removes hpasses hcase]
    exact node_removed hcase

end Client

section Upload
variable {clientCwd cwd databaseFiles : List CString} {s s' : Service} {v : Vault}
variable {account filename : Token} {totalSize : UInt64} {clock now : Int} {mem : Files} {task : Task}
variable {effects : List Effect} {faults : Nat → Option Fault} {trace : List CopyEvent} {total : Nat}

/-- The names, the size and the paths of an upload are as the map needs them. -/
structure ClientProgram.UploadAdmissible (clientCwd cwd databaseFiles : List CString) (store : UserStore)
    (account filename : Token) (totalSize : UInt64) (clock : Int) : Prop where
  key : Key databaseFiles account.text filename.text
  path : (userDirPath store account.text ++ slash :: filename.text).length ≤ 511
  other : locate clientCwd filename.text ≠ locate clientCwd (uploadTmpfile filename.text clock)
  outside : ¬ Inside (rootLocation cwd store) (locate clientCwd (uploadTmpfile filename.text clock))
  size : totalSize.toNat ≤ 10 * 1024 * 1024

/-- The files once the client has taken its temporary file away. -/
def withoutTmpfile (clientCwd : List CString) (filename : Token) (clock : Int) (files : Files) : Files :=
  (performCall clientCwd none files (uploadTmpfile filename.text clock, .unlink)).2

theorem admissible_upload
    (h : UploadAdmissible clientCwd cwd databaseFiles s.store account filename totalSize clock)
    (hlength : account.text.length ≤ 63)
    (hnotdir : mem.node (locate clientCwd (uploadTmpfile filename.text clock)) ≠ .dir)
    (harguments : task.arguments = (ClientCall.upload account filename totalSize clock).arguments) :
    Admissible cwd databaseFiles ⟨s.store, mem⟩ task now := by
  obtain ⟨htype, huser, hpass, htaskpath, hsize, htmp⟩ := Arguments.mk.inj harguments
  have hsame : locate cwd (uploadTmpfile filename.text clock) =
      locate clientCwd (uploadTmpfile filename.text clock) :=
    locate_absolute (uploadTmpfile_head _ _)
  refine ⟨Or.inr (Or.inr (Or.inl htype)), ?_, ?_, ?_, ?_, ?_, ?_, ?_, ?_⟩
  · rw [huser]
    exact h.key.single
  · rw [huser]
    exact h.key.free
  · rw [huser]
    exact hlength
  · rw [hpass]
    exact Nat.zero_le _
  · rw [htaskpath]
    exact filename.fits
  · intro _
    rw [huser, htaskpath]
    exact ⟨h.key.relpath, h.path⟩
  · intro _
    rw [hsize, htmp, hsame]
    exact ⟨h.size, fun _ => ⟨h.outside, hnotdir⟩⟩
  · intro hdownload
    rw [htype] at hdownload
    contradiction

theorem Stored.withoutTmpfile (h : Stored cwd databaseFiles s v)
    (houtside : ¬ Inside (rootLocation cwd s.store) (locate clientCwd (uploadTmpfile filename.text clock))) :
    Stored cwd databaseFiles ⟨s.store, withoutTmpfile clientCwd filename clock s.files⟩ v := by
  apply h.outside
  refine ⟨performCall_sound h.sound, rootOpen_of_dirs (fun l hdir => performCall_dir hdir) h.root, ?_⟩
  intro l hl _
  exact perform_view_of_ne (ne_of_outside hl houtside)

theorem serves_dirsKept (htype : task.type = .upload) (h : Serves cwd s task now effects s') :
    DirsKept cwd s.store (quietJob task now (Or.inl htype)) s.files s'.files := by
  cases h with
  | signup hsignup => simp [htype] at hsignup
  | login hlogin => simp [htype] at hlogin
  | file _ hexec _ => exact exec_dirsKept hexec

theorem tmpfile_cleared (hstored : Stored cwd databaseFiles ⟨s.store, mem⟩ v)
    (h : UploadAdmissible clientCwd cwd databaseFiles s.store account filename totalSize clock)
    (ha : Admissible cwd databaseFiles ⟨s.store, mem⟩ task now)
    (harguments : task.arguments = (ClientCall.upload account filename totalSize clock).arguments)
    (hopens : DestinationOpen clientCwd (uploadTmpfile filename.text clock) mem)
    (hserves : Serves cwd ⟨s.store, mem⟩ task now effects s') :
    (withoutTmpfile clientCwd filename clock s'.files).node
      (locate clientCwd (uploadTmpfile filename.text clock)) = .absent := by
  obtain ⟨htype, huser, -, htaskpath, -, -⟩ := Arguments.mk.inj harguments
  have hkept := serves_dirsKept htype hserves
  have hclears : (quietJob task now (Or.inl htype)).clears cwd s.store =
      keyLocation cwd s.store account.text filename.text := by
    have hlocate : locate cwd ((quietJob task now (Or.inl htype)).userPath s.store) =
        keyLocation cwd s.store task.username task.path :=
      locate_userPath ha.single (ha.relpath (Or.inl htype)).1 (ha.relpath (Or.inl htype)).2
    have hno : (quietJob task now (Or.inl htype)).task.type ≠ .download := by
      rw [show (quietJob task now (Or.inl htype)).task.type = .upload from htype]
      simp
    rw [FileJob.clears, if_neg hno, hlocate,
      show task.username = account.text from huser, show task.path = filename.text from htaskpath]
  have hmakes : ∀ l, (quietJob task now (Or.inl htype)).makes cwd s.store = some l →
      l = homeLocation cwd s.store task.username := by
    intro l hl
    have hhome : locate cwd (userDirectory s.store task.username) =
        homeLocation cwd s.store task.username :=
      locate_userDirectory ha.single ha.username
    have htype' : (quietJob task now (Or.inl htype)).task.type = .upload := htype
    rw [FileJob.makes, htype'] at hl
    split at hl
    · obtain rfl := Option.some.inj hl
      exact hhome
    · contradiction
  apply unlink_clears
  · refine barred_of_dirs ?_ hopens.passes
    intro l _ hdir
    apply hkept.dirs l _ hdir
    rintro rfl
    rw [hclears] at hdir
    exact hstored.key_not_dir h.key hdir
  · apply hkept.others
    · intro heq
      have hinside : StrictlyInside (rootLocation cwd s.store) (homeLocation cwd s.store task.username) :=
        inside_home
      exact ne_of_outside hinside h.outside (hmakes _ heq).symm
    · obtain ⟨k, hk⟩ := hopens.file
      simp [hk]

theorem copied_admissible (now : Int) (hstored : Stored cwd databaseFiles s v)
    (h : UploadAdmissible clientCwd cwd databaseFiles s.store account filename totalSize clock)
    (hlength : account.text.length ≤ 63)
    (hrun : CopyRuns clientCwd filename.text (uploadTmpfile filename.text clock) faults s.files trace
      (.copied total) mem)
    (harguments : task.arguments = (ClientCall.upload account filename totalSize clock).arguments) :
    Stored cwd databaseFiles ⟨s.store, mem⟩ v ∧ Admissible cwd databaseFiles ⟨s.store, mem⟩ task now ∧
      sourceBytes cwd mem task.tmpfile =
        some ((sourceText s.files (locate clientCwd filename.text)).take total) ∧
      DestinationOpen clientCwd (uploadTmpfile filename.text clock) mem := by
  have htmp : task.tmpfile = uploadTmpfile filename.text clock := congrArg Arguments.tmpfile harguments
  have hstate := copyRuns_state hstored.sound h.other hrun
  have hcopied : CopiedTo clientCwd (uploadTmpfile filename.text clock) mem _ total _ := hstate.holds
  refine ⟨hstored.outside (hstate.outside databaseFiles hstored.root h.outside), ?_, ?_, hcopied.opens⟩
  · apply admissible_upload h hlength _ harguments
    obtain ⟨k, hk⟩ := hcopied.opens.file
    rw [hk]
    nofun
  · rw [htmp]
    exact sourceBytes_copied (uploadTmpfile_head _ _) hcopied

/-- What the client has read of its file, up to the end or a failing `read`, becomes the file of
the user, nothing else of the map changes, and the temporary file is gone. -/
theorem client_upload_stores (clientCwd cwd databaseFiles : List CString) (s : Service) (v : Vault)
    (account filename : Token) (clock : Int) (faults : Nat → Option Fault) (trace : List CopyEvent)
    (total : Nat) (mem : Files) (hstored : Stored cwd databaseFiles s v)
    (haccount : v.accounts account.text ≠ none)
    (hadmissible : UploadAdmissible clientCwd cwd databaseFiles s.store account filename
      (UInt64.ofNat total) clock)
    (hrun : CopyRuns clientCwd filename.text (uploadTmpfile filename.text clock) faults s.files trace
      (.copied total) mem)
    (hfits : (ClientCall.upload account filename (UInt64.ofNat total) clock).Fits)
    (client : ClientInfo) (time : Timespec) (now : Int) (buf : Buffer) (more : List Byte) :
    ∃ task effects s', parseCommand client time (cString (recvLine
        ((ClientCall.upload account filename (UInt64.ofNat total) clock).bytes ++ more) buf).buf.toList) =
          .submit task ∧
      Serves cwd ⟨s.store, mem⟩ task now effects s' ∧
      (∃ message, effects = [.sendResponse .ok message]) ∧
      Stored cwd databaseFiles ⟨s'.store, withoutTmpfile clientCwd filename clock s'.files⟩
        (v.bind (account.text, filename.text)
          (some ((sourceText s.files (locate clientCwd filename.text)).take total))) ∧
      (ReadsAll trace → total = (sourceText s.files (locate clientCwd filename.text)).length) ∧
      (withoutTmpfile clientCwd filename clock s'.files).node
        (locate clientCwd (uploadTmpfile filename.text clock)) = .absent := by
  obtain ⟨-, -, task, hparse, harguments⟩ := roundTrips_of_fits hfits client time buf more
  obtain ⟨htype, huser, -, htaskpath, -, -⟩ := Arguments.mk.inj harguments
  have hcopied : CopiedTo clientCwd (uploadTmpfile filename.text clock) mem _ total _ :=
    (copyRuns_state hstored.sound hadmissible.other hrun).holds
  obtain ⟨hbefore, htaskok, hbytes, hopens⟩ :=
    copied_admissible now hstored hadmissible hfits.1 hrun harguments
  have hknown : v.accounts task.username ≠ none := by
    rw [show task.username = account.text from huser]
    exact haccount
  obtain ⟨effects, s', hserves, hreply, hafter⟩ := upload_accepted hbefore htaskok htype hknown hbytes
  rw [show task.username = account.text from huser,
    show task.path = filename.text from htaskpath] at hafter
  have hroot : rootLocation cwd s'.store = rootLocation cwd s.store := by
    rw [rootLocation, rootLocation, hserves.storageRoot]
  refine ⟨task, effects, s', hparse, hserves, hreply, ?_, hcopied.complete, ?_⟩
  · apply hafter.withoutTmpfile
    rw [hroot]
    exact hadmissible.outside
  · exact tmpfile_cleared hbefore hadmissible htaskok harguments hopens hserves

end Upload

def aliceName : Token where
  text := cstr "alice"
  nonempty := by decide
  fits := by decide
  plain := by simp [cstr, isSpace]

theorem noteFilename_nonempty : cstr "note" ≠ [] :=
  List.cons_ne_nil _ _

theorem noteFilename_fits : (cstr "note").length ≤ 255 := by
  simp [cstr]

theorem noteFilename_plain : ∀ c ∈ cstr "note", isSpace c = false ∧ c ≠ 0 := by
  simp [cstr, isSpace]

def noteFilename : Token :=
  ⟨cstr "note", noteFilename_nonempty, noteFilename_fits, noteFilename_plain⟩

def aliceEnrolled : Service := (noteVisit ⟨emptyStore, noteFiles⟩ (noteTask .signup)).after

theorem aliceEnrolled_serves : ∃ effects,
    Serves [cstr "srv"] ⟨emptyStore, noteFiles⟩ (noteTask .signup) 5 effects aliceEnrolled := by
  have hsome : (serveTask [cstr "srv"] 20 ⟨emptyStore, noteFiles⟩ (noteTask .signup) 5).isSome = true := by
    decide +kernel
  obtain ⟨⟨effects, s'⟩, hrun⟩ := Option.isSome_iff_exists.mp hsome
  have hvisit : aliceEnrolled = s' := by simp only [aliceEnrolled, noteVisit, hrun]
  rw [hvisit]
  exact ⟨effects, serves_of_serveTask hrun⟩

theorem aliceEnrolled_stored : ∃ v, Stored [cstr "srv"] [cstr "users.db"] aliceEnrolled v ∧
    v.accounts (cstr "alice") ≠ none := by
  obtain ⟨_, hserves⟩ := aliceEnrolled_serves
  have hadmissible : Admissible [cstr "srv"] [cstr "users.db"] ⟨emptyStore, noteFiles⟩
      (noteTask .signup) 5 := by
    constructor <;> decide +kernel
  refine ⟨_, hserves.stored noteFiles_stored hadmissible, ?_⟩
  decide +kernel

theorem note_copied : ∃ trace mem, CopyRuns [cstr "srv"] (cstr "note") (uploadTmpfile (cstr "note") 5)
    (fun _ => none) aliceEnrolled.files trace (.copied 2) mem := by
  have hview : ((uploadCopy (cstr "note") (uploadTmpfile (cstr "note") 5)).steps
      (performCall [cstr "srv"]) (fun _ => none) .stat aliceEnrolled.files 8).map (fun t => t.2.1) =
        some (.copied 2) := by
    decide +kernel
  obtain ⟨⟨trace, stage, mem⟩, hsteps, rfl⟩ := Option.map_eq_some_iff.mp hview
  exact ⟨trace, mem, .of_steps hsteps⟩

theorem note_admissible : UploadAdmissible [cstr "srv"] [cstr "srv"] [cstr "users.db"]
    aliceEnrolled.store aliceName noteFilename (UInt64.ofNat 2) 5 :=
  ⟨by constructor <;> decide, by decide +kernel, by decide +kernel, by decide +kernel, by decide⟩

theorem note_fits : (ClientCall.upload aliceName noteFilename (UInt64.ofNat 2) 5).Fits :=
  ⟨by decide +kernel, by decide +kernel⟩

theorem note_uploaded_by_client : ∃ v trace mem task effects s',
    CopyRuns [cstr "srv"] (cstr "note") (uploadTmpfile (cstr "note") 5) (fun _ => none)
      aliceEnrolled.files trace (.copied 2) mem ∧
    Serves [cstr "srv"] ⟨aliceEnrolled.store, mem⟩ task 9 effects s' ∧
    Stored [cstr "srv"] [cstr "users.db"]
      ⟨s'.store, withoutTmpfile [cstr "srv"] noteFilename 5 s'.files⟩
      (Vault.bind v (cstr "alice", cstr "note") (some (cstr "hi"))) := by
  obtain ⟨v, hstored, haccount⟩ := aliceEnrolled_stored
  obtain ⟨trace, mem, hrun⟩ := note_copied
  have hsource : (sourceText aliceEnrolled.files (locate [cstr "srv"] (cstr "note"))).take 2 =
      cstr "hi" := by
    decide +kernel
  obtain ⟨task, effects, s', -, hserved, -, hafter, -⟩ := client_upload_stores [cstr "srv"]
    [cstr "srv"] [cstr "users.db"] aliceEnrolled v aliceName noteFilename 5 (fun _ => none) trace 2 mem
    hstored haccount note_admissible hrun note_fits ⟨1, 4⟩ ⟨0, 0⟩ 9 (Vector.replicate 512 0) []
  change Stored _ _ _ (Vault.bind _ (cstr "alice", cstr "note")
    (some ((sourceText aliceEnrolled.files (locate [cstr "srv"] (cstr "note"))).take 2))) at hafter
  rw [hsource] at hafter
  exact ⟨_, trace, mem, task, effects, s', hrun, hserved, hafter⟩

end FileServer
