import FileServer.Worker

/-!
# One response for each task (worker_thread_main in worker.c)

Every branch of the `switch` sends one response, whichever of its checks or calls
ends it. The response is OK if the branch came to its store or file operation and
that operation succeeded; an error always says something.
-/

namespace FileServer

set_option autoImplicit false

/-- The responses that the effects of a task send to its client. -/
def sentResponses (t : Task) (effects : List Effect) : List Response :=
  effects.filterMap fun
    | .sendResponse status message => some (makeResponse t status message)
    | .sendFileData _ _ => none

/-- The result of the store or file operation of a task, if its branch comes to it. -/
def operationResult (works : Bool) (files : FileResults) (store : UserStore) (t : Task)
    (user : Option User) : Option Bool :=
  match t.type with
  | .signup => some (userStoreSignup works store t.username t.password (100 * 2 ^ 20) t.priority).1
  | .login => user.map fun _ => userStoreLogin works store t.username t.password
  | .upload =>
    if t.path = [] ∨ t.tmpfile = [] then none
    else
      user.bind fun u =>
        if t.size > 10 * 1024 * 1024 ∧ u.priority.rank < TaskPriority.high.rank then none
        else if files.tmpfileOpens then some files.upload.isOk
        else none
  | .download => if t.path = [] then none else user.map fun _ => files.download.isOk
  | .delete => user.map fun _ => files.delete
  | .list => user.map fun _ => files.list.isSome
  | .unknown | .quit => none

/-- The effects send one response, which reports the result. -/
def AnswersOnce (t : Task) (effects : List Effect) (result : Option Bool) : Prop :=
  ∃ r, sentResponses t effects = [r] ∧ r.clientId = t.client.clientId ∧
    (r.status = .ok ↔ result = some true) ∧ (r.status = .err → r.message ≠ [])

section Branches
variable {t : Task} {result : Option Bool} {message : CString}

theorem answersOnce_ok (h : result = some true) :
    AnswersOnce t [.sendResponse .ok message] result := by
  refine ⟨makeResponse t .ok message, rfl, rfl, iff_of_true rfl h, ?_⟩
  intro herr
  simp [makeResponse] at herr

theorem answersOnce_err (h : result ≠ some true) (hmessage : message ≠ []) :
    AnswersOnce t [.sendResponse .err message] result := by
  refine ⟨makeResponse t .err message, rfl, rfl, iff_of_false (by simp [makeResponse]) h, ?_⟩
  intro _ hnil
  cases message with
  | nil => exact hmessage rfl
  | cons c rest => simp [makeResponse, strncpyZ] at hnil

theorem orText_ne_nil {err text : CString} (h : text ≠ []) : orText err text ≠ [] := by
  unfold orText
  split
  · exact h
  · assumption

variable (works : Bool) (files : FileResults) (store : UserStore) (user : Option User)

theorem processSignup_answers (htype : t.type = .signup) :
    AnswersOnce t (processSignup works store t).2 (operationResult works files store t user) := by
  simp only [processSignup, operationResult, htype]
  cases hok : (userStoreSignup works store t.username t.password (100 * 2 ^ 20) t.priority).1 with
  | true => exact answersOnce_ok rfl
  | false => exact answersOnce_err (by simp) (orText_ne_nil (by decide))

theorem processLogin_answers (htype : t.type = .login) :
    AnswersOnce t (processLogin works store t user) (operationResult works files store t user) := by
  simp only [operationResult, htype]
  cases user with
  | none => exact answersOnce_err (by simp) (by decide)
  | some u =>
    simp only [processLogin, Option.map_some]
    split
    · rename_i hok
      exact answersOnce_ok (by rw [hok])
    · rename_i hok
      exact answersOnce_err (by simpa using hok) (by decide)

theorem processUpload_answers (htype : t.type = .upload) :
    AnswersOnce t (processUpload files t user) (operationResult works files store t user) := by
  have hanswer : ∀ result, (result = some true ↔ uploadResult files t user = .ok ()) →
      AnswersOnce t (processUpload files t user) result := by
    intro result hresult
    unfold processUpload
    cases hupload : uploadResult files t user with
    | ok _ => exact answersOnce_ok (hresult.mpr hupload)
    | error err =>
      refine answersOnce_err (fun h => ?_) (orText_ne_nil (by decide))
      rw [hresult.mp h] at hupload
      simp at hupload
  apply hanswer
  simp only [operationResult, htype, uploadResult]
  split
  · simp
  · cases user with
    | none => simp
    | some u =>
      simp only [Option.bind_some]
      split
      · simp
      · split
        · cases files.upload with
          | ok _ => simp [Except.isOk, Except.toBool]
          | error text => simp [Except.isOk, Except.toBool]
        · simp

theorem processDownload_answers (htype : t.type = .download) :
    AnswersOnce t (processDownload files t user) (operationResult works files store t user) := by
  simp only [operationResult, htype, processDownload]
  split
  · exact answersOnce_err (by simp) (by decide)
  · cases user with
    | none => exact answersOnce_err (by simp) (by decide)
    | some u =>
      cases files.download with
      | error text =>
        apply answersOnce_err
        · simp [Except.isOk, Except.toBool]
        · exact orText_ne_nil (by decide)
      | ok p =>
        simp only [Option.map_some, Except.isOk, Except.toBool]
        split
        · exact answersOnce_ok rfl
        · exact answersOnce_ok rfl

theorem processDelete_answers (htype : t.type = .delete) :
    AnswersOnce t (processDelete files user) (operationResult works files store t user) := by
  simp only [operationResult, htype]
  cases user with
  | none => exact answersOnce_err (by simp) (by decide)
  | some u =>
    simp only [processDelete, Option.map_some]
    split
    · rename_i hok
      exact answersOnce_ok (by rw [hok])
    · rename_i hok
      exact answersOnce_err (by simpa using hok) (by decide)

theorem processList_answers (htype : t.type = .list) :
    AnswersOnce t (processList files user) (operationResult works files store t user) := by
  simp only [operationResult, htype]
  cases user with
  | none => exact answersOnce_err (by simp) (by decide)
  | some u =>
    simp only [processList, Option.map_some]
    cases files.list with
    | some listing => exact answersOnce_ok rfl
    | none => exact answersOnce_err (by simp) (by decide)

end Branches

end FileServer
