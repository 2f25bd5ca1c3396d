import FileServer.LineBuffer
import FileServer.Responses
import FileServer.Server
import FileServer.StorageTree
import FileServer.Workshop
import FileServer.UserSerial
import FileServer.Shared.Lines

/-!
# Listings (fs_list in fs.c, CMD_LIST in worker.c)

`fs_list` prints one name after another behind the `used` bytes of its buffer, as long
as `snprintf` says that the name has fitted. What it leaves is the beginning of all the
names, each with a newline, and no byte of it is written outside the buffer. Of its
4095 bytes the response keeps 511, and so does the reply on the socket.
-/

namespace FileServer

open LexicalPath Lines
set_option autoImplicit false

def newline : Byte := 10

/-- The `d_name` of an entry; with its newline it has a length that an `int` holds. -/
structure Dirent where
  dName : CString
  noNul : 0 ∉ dName
  fits : dName.length < 2147483647

def skipped (name : CString) : Prop := name = cstr "." ∨ name = cstr ".."

instance (name : CString) : Decidable (skipped name) := inferInstanceAs (Decidable (_ ∨ _))

/-- The bytes of the buffer, `used`, and whether the loop has been left by `break`. -/
structure ListLoop where
  buf : List Byte
  used : UInt64
  stopped : Bool

/-- `snprintf(buf + used, n, …)` for a format that expands to `text`, with the `int` it
returns; `none` when it writes a byte outside the buffer. -/
def snprintfAt (buf : List Byte) (used n : UInt64) (text : CString) : Option (List Byte × Int) :=
  let written := if n = 0 then [] else text.take (n.toNat - 1) ++ [0]
  let result : Int := if text.length ≤ 2147483647 then text.length else -1
  if used.toNat + written.length ≤ buf.length then
    some (buf.take used.toNat ++ written ++ buf.drop (used.toNat + written.length), result)
  else none

/-- One round of the loop. -/
def listStep (buflen : UInt64) (s : ListLoop) (de : Dirent) : Option ListLoop :=
  if s.stopped ∨ skipped de.dName then some s
  else
    (snprintfAt s.buf s.used (buflen - s.used) (de.dName ++ cstr "\n")).map fun (buf, w) =>
      if w < 0 ∨ w.toNat.toUInt64 ≥ buflen - s.used then { s with buf, stopped := true }
      else { s with buf, used := s.used + w.toNat.toUInt64 }

def listLoop (buflen : UInt64) (s : ListLoop) : List Dirent → Option ListLoop
  | [] => some s
  | de :: entries => (listStep buflen s de).bind fun s' => listLoop buflen s' entries

/-- The loop before the first entry, on a buffer of zeros. -/
def listStart (buflen : UInt64) : ListLoop := ⟨List.replicate buflen.toNat 0, 0, false⟩

/-- The names that are not passed over. -/
def fileNames (entries : List CString) : List CString := entries.filter fun name => ¬ skipped name

/-- Everything that `fs_list` would like to print. -/
def wholeListing (entries : List CString) : CString := joined newline (fileNames entries)

/-- What a buffer of `buflen` zeros holds once `text` has been printed into it. -/
def printed (buflen : Nat) (text : CString) : List Byte :=
  text.take (buflen - 1) ++ List.replicate (buflen - min (buflen - 1) text.length) 0

theorem wholeListing_append (entries more : List CString) :
    wholeListing (entries ++ more) = wholeListing entries ++ wholeListing more := by
  rw [wholeListing, fileNames, List.filter_append, joined_append]
  rfl

theorem wholeListing_skipped {name : CString} (h : skipped name) : wholeListing [name] = [] := by
  simp [wholeListing, fileNames, h]

theorem wholeListing_name {name : CString} (h : ¬ skipped name) :
    wholeListing [name] = name ++ cstr "\n" := by
  have hnewline : cstr "\n" = [newline] := by decide
  simp [wholeListing, fileNames, h, hnewline]

section Loop
variable {buflen : UInt64} {s : ListLoop} {text : CString}

theorem length_printed (hlen : 1 ≤ buflen.toNat) (text : CString) :
    (printed buflen.toNat text).length = buflen.toNat := by
  simp only [printed, List.length_append, List.length_take, List.length_replicate]
  omega

/-- The invariant of the loop: the entries so far are printed, and `used` is the length
of their text until it has become too long. -/
structure Printing (buflen : UInt64) (text : CString) (s : ListLoop) : Prop where
  buf : s.buf = printed buflen.toNat text
  used_lt : s.used.toNat < buflen.toNat
  running : s.stopped = false → s.used.toNat = text.length
  full : s.stopped = true → buflen.toNat ≤ text.length

theorem printing_start (hlen : 1 ≤ buflen.toNat) : Printing buflen [] (listStart buflen) := by
  refine ⟨?_, hlen, fun _ => rfl, by simp [listStart]⟩
  simp [listStart, printed]

theorem Printing.room (h : Printing buflen text s) :
    (buflen - s.used).toNat = buflen.toNat - s.used.toNat :=
  UInt64.toNat_sub_of_le _ _ (UInt64.le_iff_toNat_le.mpr (Nat.le_of_lt h.used_lt))

theorem printed_full (more : CString) (h : buflen.toNat ≤ text.length) :
    printed buflen.toNat (text ++ more) = printed buflen.toNat text := by
  have hmore : min (buflen.toNat - 1) (text ++ more).length = min (buflen.toNat - 1) text.length := by
    rw [List.length_append]
    omega
  rw [printed, printed, hmore, List.take_append_of_le_length (by omega)]

theorem printed_fits (h : text.length < buflen.toNat) :
    printed buflen.toNat text = text ++ List.replicate (buflen.toNat - text.length) 0 := by
  rw [printed, List.take_of_length_le (Nat.le_sub_one_of_lt h),
    Nat.min_eq_right (Nat.le_sub_one_of_lt h)]

theorem snprintfAt_printed {used : UInt64} {line : CString} (hused : used.toNat = text.length)
    (hlt : text.length < buflen.toNat) (hroom : (buflen - used).toNat = buflen.toNat - text.length)
    (hint : line.length ≤ 2147483647) :
    snprintfAt (printed buflen.toNat text) used (buflen - used) line =
      some (printed buflen.toNat (text ++ line), (line.length : Int)) := by
  obtain ⟨r, hr⟩ : ∃ r, buflen.toNat = text.length + r + 1 := ⟨buflen.toNat - text.length - 1, by omega⟩
  have hne : buflen - used ≠ 0 := by
    intro h
    have hzero : (buflen - used).toNat = 0 := by
      rw [h]
      rfl
    omega
  have hleft : (buflen - used).toNat - 1 = r := by omega
  have hwritten : (line.take r ++ [(0 : Byte)]).length = min r line.length + 1 := by
    rw [List.length_append, List.length_take, List.length_singleton]
  have hin : text.length + (line.take r ++ [(0 : Byte)]).length ≤ (printed buflen.toNat text).length := by
    rw [length_printed (by omega), hwritten]
    omega
  have hafter : (printed buflen.toNat text).drop (text.length + (line.take r ++ [(0 : Byte)]).length) =
      List.replicate (r - min r line.length) 0 := by
    rw [printed_fits hlt, List.drop_length_add_append, List.drop_replicate, hwritten]
    congr 1
    omega
  have hfinal : printed buflen.toNat (text ++ line) =
      text ++ (line.take r ++ [0]) ++ List.replicate (r - min r line.length) 0 := by
    have hcut : (text ++ line).take (buflen.toNat - 1) = text ++ line.take r := by
      rw [hr, Nat.add_sub_cancel, List.take_length_add_append]
    have hzeros : buflen.toNat - min (buflen.toNat - 1) (text ++ line).length =
        r - min r line.length + 1 := by
      rw [List.length_append]
      omega
    rw [printed, hcut, hzeros, List.replicate_succ]
    simp
  rw [snprintfAt, if_neg hne, hleft, hused]
  simp only [if_pos hin, if_pos hint, hafter, hfinal]
  rw [printed_fits hlt, List.take_left]

theorem Printing.step (h : Printing buflen text s) (de : Dirent) :
    ∃ s', listStep buflen s de = some s' ∧ Printing buflen (text ++ wholeListing [de.dName]) s' := by
  have hfits := de.fits
  have hlt := h.used_lt
  unfold listStep
  by_cases hstopped : s.stopped = true
  · refine ⟨s, if_pos (Or.inl hstopped), ?_⟩
    have hfull := h.full hstopped
    refine ⟨?_, hlt, by simp [hstopped], ?_⟩
    · rw [h.buf, printed_full _ hfull]
    · intro _
      rw [List.length_append]
      omega
  have hrunning : s.stopped = false := by simpa using hstopped
  have hused := h.running hrunning
  by_cases hskip : skipped de.dName
  · refine ⟨s, if_pos (Or.inr hskip), ?_⟩
    rw [wholeListing_skipped hskip, List.append_nil]
    exact h
  have hroom : (buflen - s.used).toNat = buflen.toNat - text.length := hused ▸ h.room
  have hlength : (de.dName ++ cstr "\n").length = de.dName.length + 1 := by
    rw [List.length_append]
    rfl
  have hprint : snprintfAt (printed buflen.toNat text) s.used (buflen - s.used)
      (de.dName ++ cstr "\n") = some _ := snprintfAt_printed hused (by omega) hroom (by omega)
  have hw : (((de.dName ++ cstr "\n").length : Int).toNat.toUInt64).toNat =
      (de.dName ++ cstr "\n").length := by
    have hsize : UInt64.size = 18446744073709551616 := rfl
    rw [Int.toNat_natCast]
    exact UInt64.toNat_ofNat_of_lt (by omega)
  have hnonneg : ¬ ((de.dName ++ cstr "\n").length : Int) < 0 := Int.not_lt.mpr (Int.natCast_nonneg _)
  rw [← h.buf] at hprint
  rw [if_neg (by simp [hstopped, hskip]), hprint, wholeListing_name hskip]
  refine ⟨_, rfl, ?_⟩
  generalize de.dName ++ cstr "\n" = line at hlength hprint hw hnonneg ⊢
  dsimp only
  split
  · rename_i hstop
    have hfull := UInt64.le_iff_toNat_le.mp (hstop.resolve_left hnonneg)
    refine ⟨rfl, hlt, by simp, ?_⟩
    intro _
    rw [List.length_append]
    omega
  · rename_i hgo
    have hshort := mt (fun hle => Or.inr (UInt64.le_iff_toNat_le.mpr hle)) hgo
    have hsum : (s.used + ((line.length : Int).toNat.toUInt64)).toNat = text.length + line.length := by
      rw [UInt64.toNat_add, hused, hw]
      apply Nat.mod_eq_of_lt
      have hword := buflen.toNat_lt
      omega
    refine ⟨rfl, ?_, ?_, by simp [hrunning]⟩
    · rw [hsum]
      omega
    · intro _
      rw [hsum, List.length_append]

theorem Printing.loop (h : Printing buflen text s) (entries : List Dirent) :
    ∃ s', listLoop buflen s entries = some s' ∧
      Printing buflen (text ++ wholeListing (entries.map Dirent.dName)) s' := by
  induction entries generalizing text s with
  | nil =>
    refine ⟨s, rfl, ?_⟩
    rwa [List.map_nil, wholeListing, fileNames, List.filter_nil, joined_nil, List.append_nil]
  | cons de entries ih =>
    obtain ⟨s₁, hstep, h₁⟩ := h.step de
    obtain ⟨s₂, hloop, h₂⟩ := ih h₁
    refine ⟨s₂, ?_, ?_⟩
    · rw [listLoop, hstep, Option.bind_some, hloop]
    · rwa [List.append_assoc, ← wholeListing_append] at h₂

/-- What `fs_list` leaves in a zeroed buffer, and that up to every entry `used` stays
inside it, so that `buflen - used` is the difference. -/
theorem fs_list_prints_prefix (buflen : UInt64) (hlen : 1 ≤ buflen.toNat) (entries : List Dirent) :
    (∃ s, listLoop buflen (listStart buflen) entries = some s ∧
      ∃ zeros, zeros ≠ 0 ∧ s.buf =
        (wholeListing (entries.map Dirent.dName)).take (buflen.toNat - 1) ++ List.replicate zeros 0) ∧
    ∀ pre post, entries = pre ++ post →
      ∃ s, listLoop buflen (listStart buflen) pre = some s ∧ s.buf.length = buflen.toNat ∧
        s.used.toNat ≤ buflen.toNat - 1 ∧
        (buflen - s.used).toNat = buflen.toNat - s.used.toNat := by
  constructor
  · obtain ⟨s, hloop, hprinting⟩ := (printing_start hlen).loop entries
    refine ⟨s, hloop, _, ?_, hprinting.buf⟩
    omega
  · intro pre post _
    obtain ⟨s, hloop, hprinting⟩ := (printing_start hlen).loop pre
    refine ⟨s, hloop, ?_, Nat.le_sub_one_of_lt hprinting.used_lt, hprinting.room⟩
    rw [hprinting.buf, length_printed hlen]

theorem fs_list_prefix_of_two_names :
    let buflen : UInt64 := 8
    let entries : List Dirent := [⟨cstr ".", by decide, by decide⟩, ⟨cstr "notes", by decide, by decide⟩,
      ⟨cstr "abc", by decide, by decide⟩]
    1 ≤ buflen.toNat ∧
    (∃ s, listLoop buflen (listStart buflen) entries = some s ∧
      ∃ zeros, zeros ≠ 0 ∧ s.buf =
        (wholeListing (entries.map Dirent.dName)).take (buflen.toNat - 1) ++ List.replicate zeros 0) ∧
    ∀ pre post, entries = pre ++ post →
      ∃ s, listLoop buflen (listStart buflen) pre = some s ∧ s.buf.length = buflen.toNat ∧
        s.used.toNat ≤ buflen.toNat - 1 ∧
        (buflen - s.used).toNat = buflen.toNat - s.used.toNat :=
  ⟨by decide, fs_list_prints_prefix 8 (by decide) _⟩

theorem listEntries_eq {buflen : Nat} {buf : CString} (h : buf.length < buflen)
    (entries : List CString) :
    listEntries buflen buf entries = (buf ++ wholeListing entries).take (buflen - 1) := by
  induction entries generalizing buf with
  | nil =>
    rw [listEntries, wholeListing, fileNames, List.filter_nil, joined_nil, List.append_nil,
      List.take_of_length_le (Nat.le_sub_one_of_lt h)]
  | cons name entries ih =>
    have hcons : wholeListing (name :: entries) = wholeListing [name] ++ wholeListing entries :=
      wholeListing_append [name] entries
    rw [listEntries, hcons]
    split
    · rename_i hskip
      rw [wholeListing_skipped hskip, List.nil_append]
      exact ih h
    · rename_i hname
      rw [wholeListing_name hname]
      generalize name ++ cstr "\n" = line
      dsimp only
      split
      · rename_i hlong
        rw [List.take_append, List.take_of_length_le (Nat.le_sub_one_of_lt h), Nat.sub_right_comm,
          List.take_append_of_le_length (by omega)]
      · rename_i hshort
        have hroom : (buf ++ line).length < buflen := by
          rw [List.length_append]
          omega
        rw [ih hroom, List.append_assoc]

theorem listLoop_listEntries {s : ListLoop} {entries : List Dirent} (hlen : 1 ≤ buflen.toNat)
    (h : listLoop buflen (listStart buflen) entries = some s) :
    cString s.buf = listEntries buflen.toNat [] (entries.map Dirent.dName) := by
  obtain ⟨s', hloop, hprinting⟩ := (printing_start hlen).loop entries
  rw [h] at hloop
  obtain rfl := Option.some.inj hloop
  have hplain : ∀ c ∈ wholeListing (entries.map Dirent.dName), c ≠ 0 := by
    intro c hc
    obtain ⟨name, hname, hmem⟩ := List.mem_flatMap.mp hc
    obtain ⟨de, -, rfl⟩ := List.mem_map.mp (List.mem_filter.mp hname).1
    rcases List.mem_append.mp hmem with hc | hc
    · exact ne_of_mem_of_not_mem hc de.noNul
    · rw [List.mem_singleton.mp hc]
      decide
  obtain ⟨zeros, hzeros⟩ := Nat.exists_eq_succ_of_ne_zero
    (show buflen.toNat - min (buflen.toNat - 1) (wholeListing (entries.map Dirent.dName)).length ≠ 0 by
      omega)
  rw [listEntries_eq hlen, hprinting.buf, List.nil_append, printed, hzeros, List.replicate_succ,
    cString_append_zero, cString, List.takeWhile_eq_self_iff]
  intro c hc
  simpa using hplain c (List.mem_of_mem_take hc)

end Loop

/-- `readdir` returns every name in the directory at `d` once, and `.` and `..`. -/
structure Readdir (files : Files) (d : Location) (entries : List CString) : Prop where
  once : entries.Nodup
  names : ∀ name, name ∈ entries ↔
    skipped name ∨ (SingleName name ∧ files.node (d.descend [name]) ≠ .absent)

def userLocation (cwd : List CString) (store : UserStore) (t : Task) : Location :=
  locate cwd (buildUserPath store t.username [])

/-- The responses to a LIST whose `readdir` returns `entries`. -/
def listResponses (cwd : List CString) (files : Files) (store : UserStore) (t : Task)
    (works : Bool) (fault : Option Fault) (entries : List CString) : List Response :=
  sentResponses t (processTask works
    { noResults with list := fsList cwd files store t.username fault entries } store t
    (userStoreLockUser works store t.username)).2

/-- The strings in a reply behind its status word, which end in newlines. -/
def listedNames (reply : List Byte) : List CString :=
  ((reply.drop 3).splitOn newline).filter fun line => line ≠ []

def ListExact (files : Files) (d : Location) (reply : List Byte) : Prop :=
  ∀ name, name ∈ listedNames reply ↔ SingleName name ∧ files.node (d.descend [name]) ≠ .absent

section Exact
variable {cwd : List CString} {files : Files} {store : UserStore} {t : Task} {works : Bool}
  {fault : Option Fault} {entries : List CString} {d : Location} {r : Response}

theorem Readdir.mem_fileNames (h : Readdir files d entries) (name : CString) :
    name ∈ fileNames entries ↔ SingleName name ∧ files.node (d.descend [name]) ≠ .absent := by
  rw [fileNames, List.mem_filter, h.names]
  constructor
  · rintro ⟨hskip | hfile, hname⟩
    · simp [hskip] at hname
    · exact hfile
  · intro hfile
    refine ⟨Or.inr hfile, ?_⟩
    have hname : ¬ skipped name := by
      rintro (hdot | hdots)
      · exact hfile.1.2.2.1 hdot
      · exact hfile.1.2.2.2 hdots
    simpa using hname

theorem listResponse_message (htype : t.type = .list)
    (hr : r ∈ listResponses cwd files store t works fault entries) (hok : r.status = .ok) :
    r.message = (wholeListing entries).take 511 := by
  have hsent : listResponses cwd files store t works fault entries =
      sentResponses t (processList
        { noResults with list := fsList cwd files store t.username fault entries }
        (userStoreLockUser works store t.username)) := by
    rw [listResponses, processTask, htype]
  rw [hsent] at hr
  unfold processList fsList listOpened at hr
  split at hr
  · split at hr
    · rename_i listing hlisting
      obtain rfl : r = makeResponse t .ok listing := by simpa [sentResponses] using hr
      split at hlisting
      · obtain rfl := Option.some.inj hlisting
        rw [makeResponse, strncpyZ, listEntries_eq (by decide), List.nil_append, List.take_take]
        rfl
      · contradiction
    · obtain rfl : r = makeResponse t .err _ := by simpa [sentResponses] using hr
      contradiction
  · obtain rfl : r = makeResponse t .err _ := by simpa [sentResponses] using hr
    contradiction

theorem responseLine_eq {r : Response} (h : r.message.length ≤ 511) :
    responseLine r =
      (if r.status = .ok then cstr "OK" else cstr "ERR") ++ cstr " " ++ r.message ++ cstr "\n" := by
  have hword : (if r.status = .ok then cstr "OK" else cstr "ERR").length ≤ 3 := by
    split <;> decide
  have hspace : (cstr " ").length = 1 := rfl
  have hend : (cstr "\n").length = 1 := rfl
  rw [responseLine, snprintf, List.take_of_length_le]
  rw [List.length_append, List.length_append, List.length_append]
  omega

theorem listedNames_reply (htype : t.type = .list)
    (hr : r ∈ listResponses cwd files store t works fault entries) (hok : r.status = .ok)
    (name : CString) : name ∈ listedNames (responseLine r) ↔
      name ∈ ((wholeListing entries).take 511).splitOn newline ∧ name ≠ [] := by
  have hmessage := listResponse_message htype hr hok
  have hlength : r.message.length ≤ 511 := by
    rw [hmessage]
    exact List.length_take_le _ _
  have hline : responseLine r = cstr "OK " ++ (r.message ++ [newline]) := by
    have hend : cstr "\n" = [newline] := by decide
    have hword : cstr "OK" ++ cstr " " = cstr "OK " := by decide
    rw [responseLine_eq hlength, if_pos hok, hend, hword, List.append_assoc]
  have hdrop : (responseLine r).drop 3 = r.message ++ [newline] := by
    rw [hline]
    rfl
  rw [listedNames, hdrop, splitOn_ended, hmessage, List.mem_filter, List.mem_append,
    List.mem_singleton, decide_eq_true_eq]
  constructor
  · rintro ⟨hname | hnil, hne⟩
    · exact ⟨hname, hne⟩
    · exact absurd hnil hne
  · rintro ⟨hname, hne⟩
    exact ⟨Or.inl hname, hne⟩

/-- The OK reply to LIST names the files of the directory and nothing else exactly when
none of them has a newline and together, each with a newline, they have 512 bytes. -/
theorem list_exact_iff (cwd : List CString) (files : Files) (store : UserStore) (t : Task)
    (works : Bool) (fault : Option Fault) (entries : List CString) (r : Response)
    (htype : t.type = .list) (hread : Readdir files (userLocation cwd store t) entries)
    (hr : r ∈ listResponses cwd files store t works fault entries) (hok : r.status = .ok) :
    ListExact files (userLocation cwd store t) (responseLine r) ↔
      (∀ name ∈ fileNames entries, newline ∉ name) ∧ (wholeListing entries).length ≤ 512 := by
  have hnodup : (fileNames entries).Nodup := hread.once.filter _
  have hne : ∀ name ∈ fileNames entries, name ≠ [] :=
    fun name hname => ((hread.mem_fileNames name).mp hname).1.1
  unfold ListExact
  simp only [← hread.mem_fileNames, listedNames_reply htype hr hok]
  exact read_cut_iff hnodup 511 hne

end Exact

section Examples

theorem readdir_of_entries {files : Files} {d : Location} {names : List CString}
    (hnodup : (cstr "." :: cstr ".." :: names).Nodup)
    (hthere : ∀ name ∈ names, SingleName name ∧ files.node (d.descend [name]) ≠ .absent)
    (hkeys : ∀ e ∈ files.entries, e.1.names.dropLast = d.names →
      e.1.names.getLast?.getD [] ∈ names) :
    Readdir files d (cstr "." :: cstr ".." :: names) := by
  refine ⟨hnodup, ?_⟩
  intro name
  rw [List.mem_cons, List.mem_cons, ← or_assoc]
  refine or_congr Iff.rfl ⟨hthere name, ?_⟩
  rintro ⟨-, hnode⟩
  have hnames : (d.descend [name]).names ≠ [] := by simp [Place.descend]
  rw [Files.node, if_neg hnames, Files.view] at hnode
  obtain ⟨c, hc⟩ : ∃ c, files.entries.lookup (d.descend [name]) = some c := by
    cases hlookup : files.entries.lookup (d.descend [name]) with
    | none => simp [hlookup] at hnode
    | some c => exact ⟨c, rfl⟩
  obtain ⟨before, after, hsplit, -⟩ := List.lookup_eq_some_iff.mp hc
  have hkey := hkeys (d.descend [name], c) (hsplit ▸ List.mem_append_right _ List.mem_cons_self)
  simpa [Place.descend] using hkey

def aliceHome (names : List CString) : Files :=
  serverFiles (names.map fun name => (cstr "srv/storage/alice/" ++ name, []))

def aliceList : Task := taskCreate .list ⟨1, 4⟩ (cstr "alice") [] [] [] 0 .low ⟨0, 0⟩

def twoNames : List CString := [cstr "notes", cstr "draft"]

theorem readdir_twoNames :
    Readdir (aliceHome twoNames) (userLocation serverCwd aliceStore aliceList)
      (cstr "." :: cstr ".." :: twoNames) :=
  readdir_of_entries (by decide +kernel) (by decide +kernel) (by decide +kernel)

theorem two_names_listed :
    aliceList.type = .list ∧
    Readdir (aliceHome twoNames) (userLocation serverCwd aliceStore aliceList)
      (cstr "." :: cstr ".." :: twoNames) ∧
    ⟨1, .ok, cstr "notes\ndraft\n"⟩ ∈ listResponses serverCwd (aliceHome twoNames) aliceStore aliceList
      true none (cstr "." :: cstr ".." :: twoNames) ∧
    (ListExact (aliceHome twoNames) (userLocation serverCwd aliceStore aliceList)
        (responseLine ⟨1, .ok, cstr "notes\ndraft\n"⟩) ↔
      (∀ name ∈ fileNames (cstr "." :: cstr ".." :: twoNames), newline ∉ name) ∧
        (wholeListing (cstr "." :: cstr ".." :: twoNames)).length ≤ 512) := by
  have hr : ⟨1, .ok, cstr "notes\ndraft\n"⟩ ∈ listResponses serverCwd (aliceHome twoNames) aliceStore
      aliceList true none (cstr "." :: cstr ".." :: twoNames) := by
    decide +kernel
  exact ⟨rfl, readdir_twoNames, hr, list_exact_iff serverCwd (aliceHome twoNames) aliceStore aliceList
    true none (cstr "." :: cstr ".." :: twoNames) _ rfl readdir_twoNames hr rfl⟩

def longNames : List CString := [97, 98, 99].map fun c => List.replicate 200 c

theorem long_names_not_listed :
    Readdir (aliceHome longNames) (userLocation serverCwd aliceStore aliceList)
      (cstr "." :: cstr ".." :: longNames) ∧
    ∃ r ∈ listResponses serverCwd (aliceHome longNames) aliceStore aliceList true none
        (cstr "." :: cstr ".." :: longNames),
      r.status = .ok ∧ ¬ ListExact (aliceHome longNames) (userLocation serverCwd aliceStore aliceList)
        (responseLine r) := by
  have hread : Readdir (aliceHome longNames) (userLocation serverCwd aliceStore aliceList)
      (cstr "." :: cstr ".." :: longNames) :=
    readdir_of_entries (by decide +kernel) (by decide +kernel) (by decide +kernel)
  refine ⟨hread, ⟨1, .ok, (wholeListing longNames).take 511⟩, by decide +kernel, rfl, ?_⟩
  intro hexact
  have hthere := (hread.mem_fileNames (List.replicate 200 99)).mp (by decide +kernel)
  have hlisted := (hexact (List.replicate 200 99)).mpr hthere
  revert hlisted
  decide +kernel

end Examples

end FileServer
