import FileServer.ClientProgram
import FileServer.FsUpload

/-!
# The copy that the client makes for an upload (client_program.c)

`upload_file` copies the file to a temporary one for the server to open, by `read` and
`write` in blocks of 4096 bytes. A `read` may return less than it was asked for. One that
fails ends the loop like the end of the file: what has been read until then is announced
and uploaded as if it were the whole file.
-/

namespace FileServer.ClientProgram

open LexicalPath Dialogue
set_option autoImplicit false

def bufferSize : Nat := 4096

inductive CopyCall where
  | stat
  | openRead
  | openWrite
  | read (h : Handle)
  | write (h : Handle) (block : List Byte)
  | close
  | unlink

/-- A fault that lets no byte pass is an error, any other a short count. -/
def read (cwd : List CString) (files : Files) (path : CString) (fault : Option Fault) (h : Handle) :
    CallAnswer :=
  match h.inode with
  | none => ⟨some eisdir, h, []⟩
  | some k =>
    let rest := ((files.view (locate cwd path)).inodes.getD k []).drop h.offset
    let got (n : Nat) : CallAnswer :=
      ⟨none, { h with offset := h.offset + (rest.take n).length }, rest.take n⟩
    match fault with
    | none => got bufferSize
    | some f => if f.count = 0 then ⟨some f.errno, h, []⟩ else got (min f.count bufferSize)

/-- The calls other than `read` find and leave what those of the C library do that make them;
a `stat` succeeds where an `open` for reading would. -/
def performCall (cwd : List CString) (fault : Option Fault) (files : Files) (r : CString × CopyCall) :
    CallAnswer × Files :=
  match r.2 with
  | .stat | .openRead => perform cwd fault files ⟨r.1, .fopenRead⟩
  | .openWrite => perform cwd fault files ⟨r.1, .fopenWrite⟩
  | .read h => (read cwd files r.1 fault h, files)
  | .write h block => perform cwd fault files ⟨r.1, .fwrite h block⟩
  | .close => perform cwd fault files ⟨r.1, .plain⟩
  | .unlink => perform cwd fault files ⟨r.1, .unlink⟩

inductive CopyStage where
  | stat
  | openSource
  | openTmp (i : Handle)
  | abandon
  | read (i o : Handle) (total : Nat)
  | write (i o : Handle) (total : Nat) (block : List Byte)
  | closeSource (result : Option Nat)
  | closeTmp (result : Option Nat)
  | unlinkTmp
  | failed
  | copied (total : Nat)
  deriving DecidableEq, Repr

def copyResume (a : CallAnswer) : CopyStage → CopyStage
  | .stat => if a.error = none then .openSource else .failed
  | .openSource => if a.error = none then .openTmp a.handle else .failed
  | .openTmp i => if a.error = none then .read i a.handle 0 else .abandon
  | .abandon => .failed
  | .read _ o total => if a.bytes = [] then .closeSource (some total) else .write a.handle o total a.bytes
  | .write i _ total block =>
    if a.error = none then .read i a.handle (total + block.length) else .closeSource none
  | .closeSource result => .closeTmp result
  | .closeTmp (some total) => .copied total
  | .closeTmp none => .unlinkTmp
  | .unlinkTmp => .failed
  | .failed => .failed
  | .copied total => .copied total

def uploadCopy (filename tmpfile : CString) : Program CopyStage (CString × CopyCall) CallAnswer where
  request
    | .stat => some (filename, .stat)
    | .openSource => some (filename, .openRead)
    | .openTmp _ => some (tmpfile, .openWrite)
    | .abandon => some (filename, .close)
    | .read i _ _ => some (filename, .read i)
    | .write _ o _ block => some (tmpfile, .write o block)
    | .closeSource _ => some (filename, .close)
    | .closeTmp _ => some (tmpfile, .close)
    | .unlinkTmp => some (tmpfile, .unlink)
    | .failed | .copied _ => none
  resume := copyResume

abbrev CopyEvent := Event CopyStage CallAnswer (Option Fault)

def CopyRuns (cwd : List CString) (filename tmpfile : CString) (faults : Nat → Option Fault)
    (files : Files) (trace : List CopyEvent) (stage : CopyStage) (mem : Files) : Prop :=
  Run (uploadCopy filename tmpfile) (performCall cwd) faults .stat files trace stage mem

def CopyStage.isRead : CopyStage → Bool
  | .read _ _ _ => true
  | _ => false

def ReadsAll (trace : List CopyEvent) : Prop :=
  ∀ e ∈ trace, e.stage.isRead = true → e.answer.error = none

def sourceText (files : Files) (a : Location) : List Byte := (files.contentAt a).getD []

/-- `i` has read `n` bytes of the file `src` at `a`. -/
structure Reading (mem : Files) (a : Location) (src : List Byte) (i : Handle) (n : Nat) : Prop where
  offset : i.offset = n
  file : ∀ k, i.inode = some k → (mem.view a).inodes[k]? = some src

structure Writing (cwd : List CString) (path : CString) (mem : Files) (src : List Byte) (o : Handle)
    (n : Nat) : Prop where
  offset : o.offset = n
  copy : ∃ k, o.inode = some k ∧ mem.node (locate cwd path) = .file k ∧
    (mem.view (locate cwd path)).inodes[k]? = some (src.take n)
  bound : n ≤ src.length
  passes : mem.barred (origin cwd path) (components path) = none

/-- The file at the path holds a beginning of the source, and all of it if no `read` has failed. -/
structure CopiedTo (cwd : List CString) (path : CString) (mem : Files) (src : List Byte) (total : Nat)
    (readsAll : Prop) : Prop where
  bound : total ≤ src.length
  content : mem.contentAt (locate cwd path) = some (src.take total)
  complete : readsAll → total = src.length
  opens : DestinationOpen cwd path mem

/-- What is known at each stage of the copy of `src`, which was at `a`. -/
def CopyHolds (cwd : List CString) (a : Location) (tmpfile : CString) (mem : Files) (src : List Byte)
    (readsAll : Prop) : CopyStage → Prop
  | .openTmp i => Reading mem a src i 0
  | .read i o total => Reading mem a src i total ∧ Writing cwd tmpfile mem src o total
  | .write i o total block =>
    Reading mem a src i (total + block.length) ∧ Writing cwd tmpfile mem src o total ∧
      block <+: src.drop total ∧ block ≠ []
  | .closeSource (some total) | .closeTmp (some total) | .copied total =>
    CopiedTo cwd tmpfile mem src total readsAll
  | _ => True

section Frames
variable {cwd : List CString} {path : CString} {mem mem' : Files} {a : Location} {src : List Byte}
variable {i o : Handle} {n : Nat}

theorem Reading.frame (h : Reading mem a src i n) (ha : mem'.view a = mem.view a) :
    Reading mem' a src i n := by
  refine ⟨h.offset, ?_⟩
  intro k hk
  rw [ha]
  exact h.file k hk

theorem Writing.copiedTo (h : Writing cwd path mem src o n) {readsAll : Prop}
    (hcomplete : readsAll → n = src.length) : CopiedTo cwd path mem src n readsAll := by
  obtain ⟨k, -, hnode, hcopy⟩ := h.copy
  refine ⟨h.bound, ?_, hcomplete, ⟨k, hnode⟩, h.passes⟩
  rw [Files.contentAt, hnode]
  exact hcopy

theorem CopiedTo.frame {total : Nat} {readsAll more : Prop} (h : CopiedTo cwd path mem src total readsAll)
    (hsame : mem' = mem) (hmore : more → readsAll) : CopiedTo cwd path mem' src total more := by
  rw [hsame]
  exact ⟨h.bound, h.content, fun hreads => h.complete (hmore hreads), h.opens⟩

end Frames

section Calls
variable {cwd : List CString} {files mem : Files} {a b : Location} {src block : List Byte}
variable {i o : Handle} {n : Nat} {path : CString} {fault : Option Fault}

theorem Reading.read (h : Reading mem (locate cwd path) src i n) (fault : Option Fault) :
    ((read cwd mem path fault i).error ≠ none ∧ (read cwd mem path fault i).bytes = []) ∨
    ∃ m, 0 < m ∧ read cwd mem path fault i =
      ⟨none, { i with offset := n + ((src.drop n).take m).length }, (src.drop n).take m⟩ := by
  unfold ClientProgram.read
  cases hi : i.inode with
  | none => exact Or.inl ⟨by simp, rfl⟩
  | some k =>
    have hcontent : (mem.view (locate cwd path)).inodes.getD k [] = src := by
      rw [List.getD_eq_getElem?_getD, h.file k hi]
      rfl
    simp only [hcontent, h.offset]
    cases fault with
    | none => exact Or.inr ⟨bufferSize, by decide, rfl⟩
    | some f =>
      dsimp only
      split
      · exact Or.inl ⟨by simp, rfl⟩
      · rename_i hcount
        refine Or.inr ⟨min f.count bufferSize, ?_, rfl⟩
        have hpos : 0 < bufferSize := by decide
        omega

theorem Reading.next (h : Reading mem a src i n) {m : Nat} :
    Reading mem a src { i with offset := n + m } (n + m) := ⟨rfl, h.file⟩

theorem drop_take_eq_nil {m : Nat} (hm : 0 < m) (hn : n ≤ src.length)
    (h : (src.drop n).take m = []) : n = src.length := by
  have hlength := congrArg List.length h
  rw [List.length_take, List.length_drop, List.length_nil] at hlength
  omega

theorem Writing.write (h : Writing cwd path mem src o n) (hblock : block <+: src.drop n)
    (hok : (perform cwd fault mem ⟨path, .fwrite o block⟩).1.error = none) :
    Writing cwd path (perform cwd fault mem ⟨path, .fwrite o block⟩).2 src
      (perform cwd fault mem ⟨path, .fwrite o block⟩).1.handle (n + block.length) := by
  have hpasses : (perform cwd fault mem ⟨path, .fwrite o block⟩).2.barred (origin cwd path)
      (components path) = none :=
    barred_of_dirs (fun l _ hdir => perform_dir hdir nofun) h.passes
  obtain ⟨k, hk, hnode, hcopy⟩ := h.copy
  obtain rfl := (fwrite_error_iff hk).mp hok
  have hnames : (locate cwd path).names ≠ [] := names_ne_nil hnode
  have hold : (mem.view (locate cwd path)).inodes.getD k [] = src.take n := by
    rw [List.getD_eq_getElem?_getD, hcopy]
    rfl
  have hgrown : src.take (n + block.length) = src.take n ++ block := by
    rw [List.take_add, ← List.prefix_iff_eq_take.mp hblock]
  have hlength : (src.take n).length = n := List.length_take_of_le h.bound
  have hnew : writeAt (src.take n) n block = src.take (n + block.length) := by
    have hat := writeAt_end (src.take n) block
    rw [hlength] at hat
    rw [hat, hgrown]
  have hk' : k < (mem.view (locate cwd path)).inodes.length := (List.getElem?_eq_some_iff.mp hcopy).1
  have hperform : perform cwd none mem ⟨path, .fwrite o block⟩ =
      (⟨none, { o with offset := n + block.length }, []⟩, mem.set (locate cwd path)
        { mem.view (locate cwd path) with
          inodes := (mem.view (locate cwd path)).inodes.set k (src.take (n + block.length)) }) := by
    simp only [perform, respond, fwrite, hk, hold, h.offset, hnew]
  rw [hperform] at hpasses ⊢
  refine ⟨rfl, ⟨k, hk, ?_, ?_⟩, ?_, hpasses⟩
  · rw [node_set, if_neg hnames, if_pos rfl, ← hnode, node_eq_view hnames]
  · rw [view_set, if_pos rfl]
    simp [hk']
  · have hle := hblock.length_le
    have hbound := h.bound
    rw [List.length_drop] at hle
    omega

theorem writing_start (hsound : mem.Sound)
    (hok : (perform cwd fault mem ⟨path, .fopenWrite⟩).1.error = none) :
    Writing cwd path (perform cwd fault mem ⟨path, .fopenWrite⟩).2 src
      (perform cwd fault mem ⟨path, .fopenWrite⟩).1.handle 0 := by
  have hpasses := (destinationOpen_of_fopenWrite hok).passes
  obtain ⟨k, c, heq, hnode, hempty, hnames⟩ := perform_fopenWrite_ok hsound hok
  rw [heq] at hpasses ⊢
  refine ⟨rfl, ⟨k, rfl, ?_, ?_⟩, Nat.zero_le _, hpasses⟩
  · rw [node_set, if_neg hnames, if_pos rfl, hnode]
  · rw [view_set, if_pos rfl, List.take_zero, hempty]

theorem reading_start (hsound : files.Sound) (hview : mem.view (locate cwd path) = files.view (locate cwd path))
    (hok : (perform cwd fault mem ⟨path, .fopenRead⟩).1.error = none) :
    Reading mem (locate cwd path) (sourceText files (locate cwd path))
      (perform cwd fault mem ⟨path, .fopenRead⟩).1.handle 0 := by
  obtain ⟨inode, heq, hnode⟩ := perform_fopenRead_ok hok
  rw [heq]
  refine ⟨rfl, ?_⟩
  intro k hk
  rcases hnode with ⟨rfl, -⟩ | ⟨k', rfl, hnode⟩
  · contradiction
  · obtain rfl : k' = k := Option.some.inj hk
    rw [node_congr hview] at hnode
    have hlt := hsound _ k' hnode
    rw [hview, sourceText, Files.contentAt, hnode]
    simp [hlt]

end Calls

section Runs
variable {cwd : List CString} {filename tmpfile : CString} {files mem : Files} {stage : CopyStage}
variable {fault : Option Fault} {r : CString × CopyCall} {trace : List CopyEvent}

theorem close_keeps (path : CString) : (perform cwd fault mem ⟨path, .plain⟩).2 = mem := by
  cases fault with
  | none => rfl
  | some f => rfl

theorem performCall_frame (hr : (uploadCopy filename tmpfile).request stage = some r) {l : Location}
    (hl : l ≠ locate cwd tmpfile) : (performCall cwd fault mem r).2.view l = mem.view l := by
  cases stage with
  | stat =>
    cases hr
    exact congrArg (Files.view · l) fopenRead_keeps
  | openSource =>
    cases hr
    exact congrArg (Files.view · l) fopenRead_keeps
  | openTmp i =>
    cases hr
    exact perform_view_of_ne hl
  | abandon =>
    cases hr
    exact congrArg (Files.view · l) (close_keeps filename)
  | read i o total =>
    cases hr
    rfl
  | write i o total block =>
    cases hr
    exact perform_view_of_ne hl
  | closeSource result =>
    cases hr
    exact congrArg (Files.view · l) (close_keeps filename)
  | closeTmp result =>
    cases hr
    exact congrArg (Files.view · l) (close_keeps tmpfile)
  | unlinkTmp =>
    cases hr
    exact perform_view_of_ne hl
  | failed => contradiction
  | copied total => contradiction

theorem performCall_sound (h : mem.Sound) : (performCall cwd fault mem r).2.Sound := by
  obtain ⟨path, call⟩ := r
  cases call with
  | read handle => exact h
  | _ => exact perform_sound fault _ h

theorem readsAll_append {e : CopyEvent} (h : ReadsAll (trace ++ [e])) :
    ReadsAll trace ∧ (e.stage.isRead = true → e.answer.error = none) := by
  rw [ReadsAll, List.forall_mem_append, List.forall_mem_singleton] at h
  exact h

theorem performCall_dir {l : Location} (h : mem.node l = .dir) :
    (performCall cwd fault mem r).2.node l = .dir := by
  obtain ⟨path, call⟩ := r
  cases call with
  | read handle => exact h
  | _ => exact perform_dir h nofun

theorem copyResume_holds (hr : (uploadCopy filename tmpfile).request stage = some r)
    (hab : locate cwd filename ≠ locate cwd tmpfile) (hfiles : files.Sound) (hsound : mem.Sound)
    (hview : mem.view (locate cwd filename) = files.view (locate cwd filename))
    (h : CopyHolds cwd (locate cwd filename) tmpfile mem (sourceText files (locate cwd filename))
      (ReadsAll trace) stage) :
    CopyHolds cwd (locate cwd filename) tmpfile (performCall cwd fault mem r).2
      (sourceText files (locate cwd filename))
      (ReadsAll (trace ++ [⟨stage, fault, (performCall cwd fault mem r).1⟩]))
      (copyResume (performCall cwd fault mem r).1 stage) := by
  have hsame : (performCall cwd fault mem r).2.view (locate cwd filename) =
      mem.view (locate cwd filename) := performCall_frame hr hab
  cases stage with
  | stat =>
    simp only [copyResume]
    split
    · trivial
    · trivial
  | openSource =>
    cases hr
    simp only [copyResume]
    split
    · rename_i hok
      exact (reading_start hfiles hview hok).frame hsame
    · trivial
  | openTmp i =>
    cases hr
    simp only [copyResume]
    split
    · rename_i hok
      exact ⟨Reading.frame h hsame, writing_start hsound hok⟩
    · trivial
  | abandon => trivial
  | read i o total =>
    cases hr
    obtain ⟨hreading, hwriting⟩ := h
    simp only [performCall]
    rcases hreading.read fault with ⟨herror, hnil⟩ | ⟨m, hm, hread⟩
    · simp only [copyResume, hnil, if_true]
      refine hwriting.copiedTo fun hreads => ?_
      exact absurd ((readsAll_append hreads).2 rfl) herror
    · simp only [copyResume, hread]
      split
      · rename_i hnil
        exact hwriting.copiedTo fun _ => drop_take_eq_nil hm hwriting.bound hnil
      · rename_i hne
        exact ⟨hreading.next, hwriting, List.take_prefix _ _, hne⟩
  | write i o total block =>
    cases hr
    obtain ⟨hreading, hwriting, hblock, -⟩ := h
    simp only [copyResume]
    split
    · rename_i hok
      exact ⟨hreading.frame hsame, hwriting.write hblock hok⟩
    · trivial
  | closeSource result =>
    cases hr
    cases result with
    | none => trivial
    | some total => exact CopiedTo.frame h (close_keeps filename) fun hreads => (readsAll_append hreads).1
  | closeTmp result =>
    cases hr
    cases result with
    | none => trivial
    | some total => exact CopiedTo.frame h (close_keeps tmpfile) fun hreads => (readsAll_append hreads).1
  | unlinkTmp => trivial
  | failed => contradiction
  | copied total => contradiction

structure CopyState (cwd : List CString) (filename tmpfile : CString) (files : Files)
    (trace : List CopyEvent) (stage : CopyStage) (mem : Files) : Prop where
  holds : CopyHolds cwd (locate cwd filename) tmpfile mem (sourceText files (locate cwd filename))
    (ReadsAll trace) stage
  sound : mem.Sound
  others : ∀ l, l ≠ locate cwd tmpfile → mem.view l = files.view l
  dirs : ∀ l, files.node l = .dir → mem.node l = .dir

theorem copyRuns_state {faults : Nat → Option Fault} (hfiles : files.Sound)
    (hab : locate cwd filename ≠ locate cwd tmpfile)
    (h : CopyRuns cwd filename tmpfile faults files trace stage mem) :
    CopyState cwd filename tmpfile files trace stage mem := by
  refine Run.invariant (I := CopyState cwd filename tmpfile files) h ?_ ?_
  · exact ⟨trivial, hfiles, fun l _ => rfl, fun l hdir => hdir⟩
  · intro trace stage mem r fault hstate hr
    refine ⟨copyResume_holds hr hab hfiles hstate.sound (hstate.others _ hab) hstate.holds,
      performCall_sound hstate.sound, ?_, fun l hdir => performCall_dir (hstate.dirs l hdir)⟩
    intro l hl
    rw [performCall_frame hr hl]
    exact hstate.others l hl

/-- A bound on the calls that a copy of `length` bytes still makes. -/
def CopyStage.remaining (length : Nat) : CopyStage → Nat
  | .stat => 2 * length + 8
  | .openSource => 2 * length + 7
  | .openTmp _ => 2 * length + 6
  | .abandon => 1
  | .read _ _ total => 2 * (length - total) + 5
  | .write _ _ total _ => 2 * (length - total) + 4
  | .closeSource _ => 3
  | .closeTmp _ => 2
  | .unlinkTmp => 1
  | .failed | .copied _ => 0

theorem copyResume_remaining {a : Location} {src : List Byte} {readsAll : Prop} {answer : CallAnswer}
    (hr : (uploadCopy filename tmpfile).request stage = some r)
    (h : CopyHolds cwd a tmpfile mem src readsAll stage) :
    (copyResume answer stage).remaining src.length < stage.remaining src.length := by
  cases stage with
  | stat =>
    simp only [copyResume]
    split
    · exact Nat.lt_succ_self _
    · exact Nat.succ_pos _
  | openSource =>
    simp only [copyResume]
    split
    · exact Nat.lt_succ_self _
    · exact Nat.succ_pos _
  | openTmp i =>
    simp only [copyResume]
    split
    · exact Nat.lt_succ_self _
    · simp only [CopyStage.remaining]
      omega
  | abandon => exact Nat.one_pos
  | read i o total =>
    simp only [copyResume]
    split
    · simp only [CopyStage.remaining]
      omega
    · exact Nat.lt_succ_self _
  | write i o total block =>
    obtain ⟨-, hwriting, hblock, hne⟩ := h
    have hpos := List.length_pos_of_ne_nil hne
    have hle := hblock.length_le
    rw [List.length_drop] at hle
    simp only [copyResume]
    split
    · simp only [CopyStage.remaining]
      omega
    · simp only [CopyStage.remaining]
      omega
  | closeSource result => exact Nat.lt_succ_self _
  | closeTmp result =>
    cases result with
    | none => exact Nat.lt_succ_self _
    | some total => exact Nat.succ_pos _
  | unlinkTmp => exact Nat.one_pos
  | failed => contradiction
  | copied total => contradiction

/-- With any faults the copy comes to its end. -/
theorem copy_ends (hfiles : files.Sound) (hab : locate cwd filename ≠ locate cwd tmpfile)
    (faults : Nat → Option Fault) : ∃ trace stage mem, CopyRuns cwd filename tmpfile faults files trace stage mem ∧
      (stage = .failed ∨ ∃ total, stage = .copied total) := by
  have hstart : CopyRuns cwd filename tmpfile faults files [] .stat files := .nil
  have hends : ∃ trace stage mem, CopyRuns cwd filename tmpfile faults files trace stage mem ∧
      (uploadCopy filename tmpfile).request stage = none := by
    apply Run.ends hstart (CopyStage.remaining (sourceText files (locate cwd filename)).length)
    intro trace stage mem r hrun hr
    exact copyResume_remaining hr (copyRuns_state hfiles hab hrun).holds
  obtain ⟨trace, stage, mem, hrun, hdone⟩ := hends
  refine ⟨trace, stage, mem, hrun, ?_⟩
  cases stage with
  | failed => exact Or.inl rfl
  | copied total => exact Or.inr ⟨total, rfl⟩
  | _ => contradiction

/-- Whatever fails, the copy comes to an end, and the client announces the size of a beginning of
the file, which its temporary file then holds; it is the whole file if no `read` has failed.
Nothing else changes. -/
theorem client_copies_prefix (cwd : List CString) (filename tmpfile : CString)
    (faults : Nat → Option Fault) (files : Files) (hfiles : files.Sound)
    (hab : locate cwd filename ≠ locate cwd tmpfile) :
    (∃ trace stage mem, CopyRuns cwd filename tmpfile faults files trace stage mem ∧
      (stage = .failed ∨ ∃ total, stage = .copied total)) ∧
    ∀ trace stage mem, CopyRuns cwd filename tmpfile faults files trace stage mem →
      (∀ l, l ≠ locate cwd tmpfile → mem.view l = files.view l) ∧
      ∀ total, stage = .copied total →
        total ≤ (sourceText files (locate cwd filename)).length ∧
        mem.contentAt (locate cwd tmpfile) =
          some ((sourceText files (locate cwd filename)).take total) ∧
        (ReadsAll trace → total = (sourceText files (locate cwd filename)).length) := by
  refine ⟨copy_ends hfiles hab faults, ?_⟩
  intro trace stage mem h
  have hstate := copyRuns_state hfiles hab h
  refine ⟨hstate.others, ?_⟩
  rintro total rfl
  have hcopied : CopiedTo cwd tmpfile mem _ total _ := hstate.holds
  exact ⟨hcopied.bound, hcopied.content, hcopied.complete⟩

end Runs

def draftFiles : Files where
  entries := [(locate [] (cstr "home"), ⟨.dir, []⟩), (locate [] (cstr "tmp"), ⟨.dir, []⟩),
    (locate [] (cstr "home/draft"), ⟨.file 0, [cstr "ab"]⟩)]

def readCut (n : Nat) : Option Fault :=
  if n = 3 then some ⟨cstr "Interrupted system call", 1⟩
  else if n = 5 then some ⟨cstr "Input/output error", 0⟩
  else none

theorem cut_copy_announced : ∃ trace mem,
    CopyRuns [cstr "home"] (cstr "draft") (uploadTmpfile (cstr "draft") 7) readCut draftFiles trace
      (.copied 1) mem ∧
    mem.contentAt (locate [cstr "home"] (uploadTmpfile (cstr "draft") 7)) = some (cstr "a") := by
  have hsource : sourceText draftFiles (locate [cstr "home"] (cstr "draft")) = cstr "ab" := by
    decide +kernel
  have hview : ((uploadCopy (cstr "draft") (uploadTmpfile (cstr "draft") 7)).steps
      (performCall [cstr "home"]) readCut .stat draftFiles 8).map (fun t => t.2.1) =
        some (.copied 1) := by
    decide +kernel
  obtain ⟨⟨trace, stage, mem⟩, hsteps, rfl⟩ := Option.map_eq_some_iff.mp hview
  have hrun : CopyRuns [cstr "home"] (cstr "draft") (uploadTmpfile (cstr "draft") 7) readCut
      draftFiles trace (.copied 1) mem := .of_steps hsteps
  obtain ⟨-, hall⟩ := client_copies_prefix [cstr "home"] (cstr "draft")
    (uploadTmpfile (cstr "draft") 7) readCut draftFiles (sound_of_entries (by decide +kernel))
    (by decide +kernel)
  obtain ⟨-, hcontent, -⟩ := (hall trace _ mem hrun).2 1 rfl
  rw [hsource] at hcontent
  exact ⟨trace, mem, hrun, hcontent⟩

end FileServer.ClientProgram
