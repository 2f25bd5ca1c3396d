import FileServer.ClientSession
import FileServer.ClientVault
import FileServer.Server

/-!
# What the calls of the clients do to the map (client_program.c, client.c, worker.c, fs.c)

Calls of any number of clients, one after another: each is formatted, sent, read off the
socket, parsed and processed, and an upload is copied before and its copy removed after.
Where the commands fit, the map is the one that the calls themselves describe, and a client
takes the answer for a success exactly if the map grants the operation.
-/

namespace FileServer

open LexicalPath Dialogue ClientProgram
set_option autoImplicit false

namespace ClientProgram

/-- The operation of the map that a call is meant for. `source` is what `upload_file` has
read of its file. -/
def ClientCall.op (source : List Byte) : ClientCall → Option VaultOp
  | .signup username password _ => some (.signup username.text password.text)
  | .login username password => some (.login username.text password.text)
  | .upload account filename _ _ => some (.upload account.text filename.text (some source))
  | .download account filename => some (.download account.text filename.text)
  | .delete account filename => some (.delete account.text filename.text)
  | .list _ => none

def ClientCall.Admissible (clientCwd cwd databaseFiles : List CString) (s : Service) (now : Int) :
    ClientCall → Prop
  | .signup username _ _ | .login username _ =>
    SingleName username.text ∧ username.text ∉ databaseFiles
  | .upload account filename totalSize clock =>
    UploadAdmissible clientCwd cwd databaseFiles s.store account filename totalSize clock
  | .download account filename =>
    Key databaseFiles account.text filename.text ∧
      (userDirPath s.store account.text ++ slash :: filename.text).length ≤ 511 ∧
      now.natAbs < 2 ^ 63 ∧
      ¬ Inside (rootLocation cwd s.store) (locate cwd (tempPath account.text filename.text now)) ∧
      TempRoom cwd (tempPath account.text filename.text now) s.files ∧
      (tempPath account.text filename.text now).length ≤ 255
  | .delete account filename =>
    Key databaseFiles account.text filename.text ∧
      (userDirPath s.store account.text ++ slash :: filename.text).length ≤ 511
  | .list _ => False

/-- The server reads the call off a connection, whatever the buffer of the line held before
and whatever is sent after it. -/
def ClientCall.ReadAs (call : ClientCall) (task : Task) : Prop :=
  ∃ client time buf more,
    parseCommand client time (cString (recvLine (call.bytes ++ more) buf).buf.toList) = .submit task

/-- A call from `send_command` to the answer, for an upload from the copy of the file to the
end of the temporary file. -/
inductive ServesCall (clientCwd cwd : List CString) (s : Service) (now : Int) :
    ClientCall → List Byte → Task → List Effect → Service → Prop
  | command {call : ClientCall} {task : Task} {effects : List Effect} {s' : Service} :
      call.arguments.type ≠ .upload → call.ReadAs task → Serves cwd s task now effects s' →
      ServesCall clientCwd cwd s now call [] task effects s'
  | upload {account filename : Token} {clock : Int} {faults : Nat → Option Fault}
      {trace : List CopyEvent} {total : Nat} {mem : Files} {task : Task} {effects : List Effect}
      {s' : Service} :
      CopyRuns clientCwd filename.text (uploadTmpfile filename.text clock) faults s.files trace
        (.copied total) mem →
      (ClientCall.upload account filename (UInt64.ofNat total) clock).ReadAs task →
      Serves cwd ⟨s.store, mem⟩ task now effects s' →
      ServesCall clientCwd cwd s now (.upload account filename (UInt64.ofNat total) clock)
        ((sourceText s.files (locate clientCwd filename.text)).take total) task effects
        ⟨s'.store, withoutTmpfile clientCwd filename clock s'.files⟩

structure CallServed where
  call : ClientCall
  source : List Byte
  task : Task
  effects : List Effect
  after : Service

def CallServed.op (visit : CallServed) : Option VaultOp := visit.call.op visit.source

/-- The call was answered as the map answers, and the client takes the answer for a success
exactly if the map grants the operation. -/
def CallServed.Shows (cwd : List CString) (visit : CallServed) (reply : VaultReply) : Prop :=
  Answers cwd visit.after.files visit.task visit.effects reply ∧
    ∃ status message, visit.effects = [.sendResponse status message] ∧
      (Surroundings.answersOk ⟨none, none,
          some (responseLine (makeResponse visit.task status message))⟩ = true ↔ reply ≠ .err)

def CallServed.CleansUp (visit : CallServed) : Prop :=
  ∀ account filename totalSize clock, visit.call = .upload account filename totalSize clock →
    visit.after.files.node (locate [] (uploadTmpfile filename.text clock)) = .absent

end ClientProgram

section Calls
variable {clientCwd cwd databaseFiles : List CString} {s s' s₀ : Service} {v : Vault} {now : Int}
variable {call : ClientCall} {source : List Byte} {task : Task} {effects : List Effect}

theorem arguments_of_readAs (hfits : call.Fits) (h : call.ReadAs task) :
    task.arguments = call.arguments := by
  obtain ⟨client, time, buf, more, hparse⟩ := h
  obtain ⟨-, -, task', hparse', harguments⟩ := roundTrips_of_fits hfits client time buf more
  rw [hparse] at hparse'
  cases hparse'
  exact harguments

theorem upload_answers {files files' : Files} {user relpath : CString} {bytes : Option (List Byte)}
    (h : Answers cwd files task effects (v.apply (.upload user relpath bytes)).1) :
    Answers cwd files' task effects (v.apply (.upload user relpath bytes)).1 := by
  unfold Vault.apply at h ⊢
  dsimp only at h ⊢
  split
  · rename_i hgranted
    rw [if_pos hgranted] at h
    exact h
  · rename_i hrefused
    rw [if_neg hrefused] at h
    exact h

theorem admissible_command (htype : task.type = .signup ∨ task.type = .login ∨
      task.type = .download ∨ task.type = .delete)
    (hsingle : SingleName task.username) (hfree : task.username ∉ databaseFiles)
    (huser : task.username.length ≤ 63) (hpass : task.password.length ≤ 63)
    (hpath : task.path.length ≤ 255)
    (hrelpath : task.type = .download ∨ task.type = .delete → SingleName task.path ∧
      (userDirPath s.store task.username ++ slash :: task.path).length ≤ 511)
    (htemp : task.type = .download → now.natAbs < 2 ^ 63 ∧
      ¬ Inside (rootLocation cwd s.store) (locate cwd (tempPath task.username task.path now)) ∧
      TempRoom cwd (tempPath task.username task.path now) s.files) :
    Admissible cwd databaseFiles s task now := by
  have hno : task.type ≠ .upload := by
    rintro hupload
    simp [hupload] at htype
  refine ⟨?_, hsingle, hfree, huser, hpass, hpath, ?_, fun hupload => absurd hupload hno, htemp⟩
  · rcases htype with htype | htype | htype | htype
    · exact Or.inl htype
    · exact Or.inr (Or.inl htype)
    · exact Or.inr (Or.inr (Or.inr (Or.inl htype)))
    · exact Or.inr (Or.inr (Or.inr (Or.inr htype)))
  · rintro (hupload | hfile)
    · exact absurd hupload hno
    · exact hrelpath hfile

theorem command_admissible (source : List Byte) (hcall : call.arguments.type ≠ .upload) (hfits : call.Fits)
    (ha : call.Admissible clientCwd cwd databaseFiles s now)
    (harguments : task.arguments = call.arguments) :
    Admissible cwd databaseFiles s task now ∧ call.op source = some (vaultOp cwd s.files task) := by
  obtain ⟨type, client, username, password, path, tmpfile, size, priority, enqueueTime⟩ := task
  cases call with
  | upload account filename totalSize clock => exact absurd rfl hcall
  | list account => exact False.elim ha
  | signup user pass _ =>
    cases harguments
    refine ⟨?_, rfl⟩
    apply admissible_command (Or.inl rfl) ha.1 ha.2 hfits.1 hfits.2.1 (Nat.zero_le _)
    · simp
    · simp
  | login user pass =>
    cases harguments
    refine ⟨?_, rfl⟩
    apply admissible_command (Or.inr (Or.inl rfl)) ha.1 ha.2 hfits.1 hfits.2 (Nat.zero_le _)
    · simp
    · simp
  | download account filename =>
    cases harguments
    obtain ⟨hkey, hpath, hnow, houtside, htemp, -⟩ := ha
    refine ⟨?_, rfl⟩
    exact admissible_command (Or.inr (Or.inr (Or.inl rfl))) hkey.single hkey.free hfits
      (Nat.zero_le _) filename.fits (fun _ => ⟨hkey.relpath, hpath⟩)
      (fun _ => ⟨hnow, houtside, htemp⟩)
  | delete account filename =>
    cases harguments
    obtain ⟨hkey, hpath⟩ := ha
    refine ⟨?_, rfl⟩
    apply admissible_command (Or.inr (Or.inr (Or.inr rfl))) hkey.single hkey.free hfits.1
      (Nat.zero_le _) filename.fits (fun _ => ⟨hkey.relpath, hpath⟩)
    simp

theorem command_named (ha : call.Admissible clientCwd cwd databaseFiles s now)
    (harguments : task.arguments = call.arguments) : ¬ Misnamed v task now := by
  rintro ⟨htype, -, hlong⟩
  obtain ⟨type, client, username, password, path, tmpfile, size, priority, enqueueTime⟩ := task
  cases call with
  | download account filename =>
    cases harguments
    obtain ⟨-, -, -, -, -, hshort⟩ := ha
    exact absurd hshort (Nat.not_le.mpr hlong)
  | signup _ _ _ | login _ _ | upload _ _ _ _ | delete _ _ | list _ =>
    cases harguments
    cases htype

theorem ClientProgram.ServesCall.refines (h : Stored cwd databaseFiles s v) (hfits : call.Fits)
    (ha : call.Admissible clientCwd cwd databaseFiles s now)
    (hserves : ServesCall clientCwd cwd s now call source task effects s') :
    ∃ op, call.op source = some op ∧ Answers cwd s'.files task effects (v.apply op).1 ∧
      Stored cwd databaseFiles s' (v.apply op).2 ∧
      (⟨call, source, task, effects, s'⟩ : CallServed).CleansUp := by
  cases hserves with
  | command hcall hread hserves =>
    have harguments := arguments_of_readAs hfits hread
    obtain ⟨htask, hop⟩ := command_admissible _ hcall hfits ha harguments
    obtain ⟨hanswers, hstored⟩ := hserves.refines h htask (command_named ha harguments)
    refine ⟨_, hop, hanswers, hstored, ?_⟩
    rintro account filename totalSize clock rfl
    exact absurd rfl hcall
  | @upload account filename clock faults trace total mem _ _ s' hrun hread hserves =>
    have harguments := arguments_of_readAs hfits hread
    obtain ⟨htype, huser, -, hpath, -, -⟩ := Arguments.mk.inj harguments
    obtain ⟨hbefore, htask, hbytes, hopens⟩ := copied_admissible now h ha hfits.1 hrun harguments
    obtain ⟨hanswers, hstored⟩ := hserves.refines hbefore htask (command_named ha harguments)
    have hop : vaultOp cwd mem task = .upload account.text filename.text
        (some ((sourceText s.files (locate clientCwd filename.text)).take total)) := by
      simp only [vaultOp, htype, huser, hpath, hbytes]
    rw [hop] at hanswers hstored
    refine ⟨_, rfl, ?_, ?_, ?_⟩
    · exact upload_answers hanswers
    · apply hstored.withoutTmpfile
      have hroot : rootLocation cwd s'.store = rootLocation cwd s.store := by
        rw [rootLocation, rootLocation, hserves.storageRoot]
      rw [hroot]
      exact ha.outside
    · intro _ _ _ _ hsame
      cases hsame
      rw [locate_absolute (uploadTmpfile_head _ _)]
      exact tmpfile_cleared hbefore ha htask harguments hopens hserves

end Calls

end FileServer
