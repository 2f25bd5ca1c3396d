import FileServer.FileRuns

/-!
# A copy whose calls may fail (fs.c)

What `fs_upload` and `fs_download_path` know of their copy at each point of the
loop. A failing `fread` leaves the error indicator of its file set, and a loop that
goes on after it copies for nothing. As long as the indicator is not set, the
destination holds the coded part of the source that has been read.
-/

namespace FileServer

open LexicalPath
set_option autoImplicit false

section State
variable {files mem mem' : Files} {a b : Location}

/-- Nothing has happened at `l` but that a directory may have been made there. -/
def Untouched (files mem : Files) (l : Location) : Prop :=
  mem.view l = files.view l ∨ (files.node l = .absent ∧ mem.node l = .dir)

theorem Untouched.file {l : Location} (h : Untouched files mem l) {k : Nat}
    (hk : mem.node l = .file k) : mem.view l = files.view l ∧ files.node l = .file k := by
  rcases h with h | ⟨-, hdir⟩
  · exact ⟨h, by rw [← hk, node_congr h]⟩
  · rw [hdir] at hk
    contradiction

theorem Untouched.source {l : Location} (h : Untouched files mem l) {src : List Byte}
    (hsrc : files.contentAt l = some src) : mem.view l = files.view l := by
  rcases h with h | ⟨habsent, -⟩
  · exact h
  · rw [Files.contentAt, habsent] at hsrc
    contradiction

theorem Untouched.contentAt {l : Location} (h : Untouched files mem l) :
    mem.contentAt l = files.contentAt l := by
  rcases h with h | ⟨habsent, hdir⟩
  · exact contentAt_congr h
  · rw [Files.contentAt, Files.contentAt, habsent, hdir]

theorem Untouched.mkdir {cwd : List CString} {path : CString} {fault : Option Fault} {l : Location}
    (h : Untouched files mem l) :
    Untouched files (perform cwd fault mem ⟨path, .mkdir⟩).2 l := by
  rcases perform_changes cwd fault mem ⟨path, .mkdir⟩ with heq | ⟨c, hc, heq⟩
  · rwa [heq]
  · rw [heq]
    by_cases hl : l = locate cwd path
    · subst hl
      cases hc with
      | mkdir habsent =>
        right
        constructor
        · rcases h with h | ⟨habsent', -⟩
          · rw [← habsent, node_congr h]
          · exact habsent'
        · rw [node_set, if_pos rfl]
          split <;> rfl
    · rcases h with h | ⟨habsent, hdir⟩
      · left
        rw [view_set, if_neg hl, h]
      · right
        refine ⟨habsent, ?_⟩
        rw [node_set, if_neg hl, hdir]
        split <;> rfl

theorem Untouched.perform {cwd : List CString} {r : Request} {fault : Option Fault} {l : Location}
    (h : Untouched files mem l) (hne : l ≠ locate cwd r.path) :
    Untouched files (perform cwd fault mem r).2 l := by
  have hview : (FileServer.perform cwd fault mem r).2.view l = mem.view l := perform_view_of_ne hne
  rcases h with h | ⟨habsent, hdir⟩
  · exact Or.inl (hview.trans h)
  · exact Or.inr ⟨habsent, by rw [node_congr hview, hdir]⟩

/-- `i` reads a directory or has its error indicator set. -/
def Flawed (i : Handle) : Prop := i.error = true ∨ i.inode = none

/-- `i` is open at the start of the file that was at `a` in `files`. -/
def SourceOpen (files : Files) (a : Location) (i : Handle) : Prop :=
  i.offset = 0 ∧
    (Flawed i ∨ ∃ k src, i.inode = some k ∧ files.contentAt a = some src ∧
      (files.view a).inodes[k]? = some src)

/-- The file at `b` is the coded content of what was at `a` in `files`. -/
def Decoded (files mem : Files) (a b : Location) : Prop :=
  ∃ src, files.contentAt a = some src ∧ mem.contentAt b = some (codeFile src)

/-- The loop is about to read; what has been read is at `b`. -/
def ReadsOn (files mem : Files) (a b : Location) (i o : Handle) : Prop :=
  Flawed i ∨ ∃ src n, files.contentAt a = some src ∧ Copying mem a b src n i o ∧ i.offset = n

/-- The loop has read a block that is not yet at `b`. -/
def HoldsBlock (files mem : Files) (a b : Location) (i o : Handle) (block : List Byte) : Prop :=
  Flawed i ∨ ∃ src n, files.contentAt a = some src ∧ Copying mem a b src n i o ∧
    i.offset = n + block.length ∧ block = nextBlock src n ∧ block ≠ []

theorem Decoded.frame (h : Decoded files mem a b)
    (hb : ∀ k, mem.node b = .file k → mem'.view b = mem.view b) : Decoded files mem' a b := by
  obtain ⟨src, hsrc, hcontent⟩ := h
  refine ⟨src, hsrc, ?_⟩
  cases hnode : mem.node b with
  | file k => rw [contentAt_congr (hb k hnode), hcontent]
  | absent => simp [Files.contentAt, hnode] at hcontent
  | dir => simp [Files.contentAt, hnode] at hcontent

end State

section Calls
variable {cwd : List CString} {files mem : Files} {a b : Location} {path : CString}
  {fault : Option Fault} {i o : Handle} {block : List Byte}

theorem perform_plain : perform cwd fault mem ⟨path, .plain⟩ =
    ((perform cwd fault mem ⟨path, .plain⟩).1, mem) := by
  cases fault <;> rfl

theorem perform_plain_error :
    (perform cwd fault mem ⟨path, .plain⟩).1.error = none ↔ fault = none := by
  cases fault with
  | none => exact iff_of_true rfl rfl
  | some f => exact iff_of_false (by simp [perform, respond, failed]) (by simp)

theorem perform_fread : perform cwd fault mem ⟨path, .fread i⟩ = (fread cwd mem path fault i, mem) :=
  rfl

theorem fread_error_of_flawed (h : Flawed i) : (fread cwd mem path fault i).handle.error = true := by
  unfold fread
  split
  · rfl
  · rename_i k hk
    rcases h with h | h
    · cases fault with
      | none => exact h
      | some f => rfl
    · rw [hk] at h
      contradiction

theorem fread_error_of_fault {f : Fault} : (fread cwd mem path (some f) i).handle.error = true := by
  unfold fread
  split <;> rfl

theorem fread_inode : (fread cwd mem path fault i).handle.inode = i.inode := by
  unfold fread
  split
  · rfl
  · cases fault <;> rfl

theorem fread_error_iff {k : Nat} (hk : i.inode = some k) :
    (fread cwd mem path fault i).handle.error = true ↔ i.error = true ∨ fault ≠ none := by
  unfold fread
  rw [hk]
  cases fault with
  | none => simp
  | some f => simp

theorem fread_offset {k : Nat} {src : List Byte} (hk : i.inode = some k)
    (hsrc : (mem.view (locate cwd path)).inodes[k]? = some src) :
    (fread cwd mem path fault i).handle.offset =
        i.offset + (fread cwd mem path fault i).bytes.length ∧
      (fread cwd mem path fault i).bytes.length ≤ src.length - i.offset := by
  have hrest : ((mem.view (locate cwd path)).inodes.getD k []).length = src.length := by
    rw [List.getD_eq_getElem?_getD, hsrc]
    rfl
  unfold fread
  rw [hk]
  cases fault with
  | none =>
    refine ⟨rfl, ?_⟩
    rw [List.length_take, List.length_drop, hrest]
    exact Nat.min_le_right _ _
  | some f =>
    refine ⟨rfl, ?_⟩
    rw [List.length_take, List.length_drop, hrest]
    exact Nat.min_le_right _ _

theorem fwrite_error_iff {k : Nat} (hk : o.inode = some k) :
    (perform cwd fault mem ⟨path, .fwrite o block⟩).1.error = none ↔ fault = none := by
  rw [perform_fst]
  cases fault with
  | none => simp [respond, fwrite, hk]
  | some f => simp [respond, fwrite, hk, failed]

theorem fopenRead_keeps : (perform cwd fault mem ⟨path, .fopenRead⟩).2 = mem := by
  cases fault <;> rfl

theorem fopenWrite_keeps (h : (perform cwd fault mem ⟨path, .fopenWrite⟩).1.error ≠ none) :
    (perform cwd fault mem ⟨path, .fopenWrite⟩).2 = mem := by
  cases fault with
  | some f => rfl
  | none =>
    rw [perform_fopenWrite] at h
    rcases fopenWrite_cases cwd mem path with ⟨errno, heq⟩ | ⟨-, heq⟩ | ⟨k, -, heq⟩
    · simp only [perform, respond, heq]
    · rw [heq] at h
      exact absurd rfl h
    · rw [heq] at h
      exact absurd rfl h

theorem sourceOpen_of_fopenRead (hfiles : files.Sound)
    (hsource : Untouched files mem (locate cwd path))
    (hok : (perform cwd fault mem ⟨path, .fopenRead⟩).1.error = none) :
    SourceOpen files (locate cwd path) (perform cwd fault mem ⟨path, .fopenRead⟩).1.handle := by
  obtain ⟨inode, heq, hnode⟩ := perform_fopenRead_ok hok
  rw [heq]
  refine ⟨rfl, ?_⟩
  rcases hnode with ⟨rfl, -⟩ | ⟨k, rfl, hnode⟩
  · exact Or.inl (Or.inr rfl)
  · obtain ⟨-, hfile⟩ := hsource.file hnode
    have hk := hfiles _ k hfile
    have hcontent : files.contentAt (locate cwd path) =
        some (files.view (locate cwd path)).inodes[k] := by
      rw [Files.contentAt, hfile]
      exact List.getElem?_eq_getElem hk
    exact Or.inr ⟨k, _, rfl, hcontent, List.getElem?_eq_getElem hk⟩

theorem SourceOpen.readsOn (h : SourceOpen files a i) (hab : a ≠ locate cwd path)
    (hsound : mem.Sound) (hsource : Untouched files mem a)
    (hok : (perform cwd fault mem ⟨path, .fopenWrite⟩).1.error = none) :
    ReadsOn files (perform cwd fault mem ⟨path, .fopenWrite⟩).2 a (locate cwd path) i
      (perform cwd fault mem ⟨path, .fopenWrite⟩).1.handle := by
  obtain ⟨m, c, heq, hnode, hempty, hnames⟩ := perform_fopenWrite_ok hsound hok
  rw [heq]
  obtain ⟨hoffset, hflawed | ⟨k, src, hk, hcontent, hsrc⟩⟩ := h
  · exact Or.inl hflawed
  · rw [← hsource.source hcontent] at hsrc
    exact Or.inr ⟨src, 0, hcontent, copying_start hk hsrc hab hnode hempty hnames, hoffset⟩

theorem ReadsOn.fread (h : ReadsOn files mem (locate cwd path) b i o)
    (herror : (fread cwd mem path fault i).handle.error ≠ true) :
    ((fread cwd mem path fault i).bytes = [] → Decoded files mem (locate cwd path) b) ∧
      ((fread cwd mem path fault i).bytes ≠ [] →
        HoldsBlock files mem (locate cwd path) b (fread cwd mem path fault i).handle o
          (fread cwd mem path fault i).bytes) := by
  rcases h with hflawed | ⟨src, n, hsrc, hcopy, hoffset⟩
  · exact absurd (fread_error_of_flawed hflawed) herror
  · cases fault with
    | some f => exact absurd fread_error_of_fault herror
    | none =>
      rw [hcopy.fread hoffset]
      refine ⟨?_, fun hne => Or.inr ⟨src, n, hsrc, hcopy.advance rfl, rfl, rfl, hne⟩⟩
      intro hend
      obtain rfl := (nextBlock_eq_nil hcopy.bound).mp hend
      exact ⟨src, hsrc, hcopy.complete⟩

theorem HoldsBlock.fwrite (h : HoldsBlock files mem a (locate cwd path) i o block)
    (hab : a ≠ locate cwd path)
    (hok : (perform cwd fault mem ⟨path, .fwrite o (encodeData block)⟩).1.error = none) :
    ReadsOn files (perform cwd fault mem ⟨path, .fwrite o (encodeData block)⟩).2 a
      (locate cwd path) i
      (perform cwd fault mem ⟨path, .fwrite o (encodeData block)⟩).1.handle := by
  rcases h with hflawed | ⟨src, n, hsrc, hcopy, hoffset, hblock, hne⟩
  · exact Or.inl hflawed
  · obtain ⟨k, hk, -⟩ := hcopy.copy
    obtain rfl := (fwrite_error_iff hk).mp hok
    obtain ⟨c, heq, hnext⟩ := hcopy.fwrite hblock hne hab
    have hperform : perform cwd none mem ⟨path, .fwrite o (encodeData block)⟩ =
        (⟨none, { o with offset := n + block.length }, []⟩, mem.set (locate cwd path) c) := by
      simp only [perform, respond, heq]
    rw [hperform]
    exact Or.inr ⟨src, _, hsrc, hnext, hoffset⟩

end Calls

end FileServer
