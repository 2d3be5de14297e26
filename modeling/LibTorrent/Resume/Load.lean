import LibTorrent.Utils.Ranges
import LibTorrent.Object.Basic
import LibTorrent.Data.FileRanges

namespace LibTorrent

open Lib.Decimal

inductive ResumeFault
  | bencodeError
  | inputError (message : String)
  deriving DecidableEq

namespace Object

def findKey (k : String) : Object → Except ResumeFault (Option Object)
  | map _ m => .ok ((m.find? fun p ↦ p.1 = ascii k).map Prod.snd)
  | _ => .error .bencodeError

/-- `has_key_value` and `get_key_value` in one. -/
def keyValue (k : String) (o : Object) : Except ResumeFault (Option Int64) := do
  match ← o.findKey k with
  | some (value _ v) => .ok (some v)
  | _ => .ok .none

def keyString (k : String) (o : Object) : Except ResumeFault (Option Bytes) := do
  match ← o.findKey k with
  | some (string _ s) => .ok (some s)
  | _ => .ok .none

def keyList (k : String) (o : Object) : Except ResumeFault (Option (List Object)) := do
  match ← o.findKey k with
  | some (list _ l) => .ok (some l)
  | _ => .ok .none

end Object

structure FileStat where
  exist : Bool
  size : ℕ
  modifiedTime : Int64

structure FileFlags where
  createQueued : Bool
  resizeQueued : Bool

/-- A download as far as its progress is loaded. The bitfield has no memory at first. -/
structure ResumeDownload (n : ℕ) where
  fileList : FileList n
  allocated : Bool
  checked : Bool
  hashingRanges : List (ℕ × ℕ)
  flags : ℕ → FileFlags

namespace ResumeDownload

variable {n : ℕ}

def opened (t : Layout) (isWanted : Fin t.sizeChunks → Bool) : ResumeDownload t.sizeChunks where
  fileList := .create t isWanted fun _ ↦ false
  allocated := false
  checked := false
  hashingRanges := []
  flags _ := ⟨false, false⟩

def writeBits (bits : Fin n → Bool) (d : ResumeDownload n) : ResumeDownload n :=
  let bitfield := Bitfield.update bits
  { d with
    fileList := { d.fileList with
      bitfield := bitfield, wantedChunks := FileList.calcWantedChunks bitfield d.fileList.isWanted } }

def setBitfield (bits : Fin n → Bool) (d : ResumeDownload n) : Except ResumeFault (ResumeDownload n) :=
  if d.checked then .error (.inputError "Download::set_bitfield(...) Download in invalid state.")
  else .ok { d.writeBits bits with allocated := true, hashingRanges := [] }

/-- `Download::update_range`. The state is kept where an error is raised. -/
def updateRange (recheck clear : Bool) (first last : ℕ) (d : ResumeDownload n) :
    ResumeDownload n × Option ResumeFault :=
  if d.checked then (d, some (.inputError "Download::clear_range(...) Download is hash checked/checking."))
  else if !d.allocated then (d, some (.inputError "Download::clear_range(...) Bitfield is empty."))
  else if last < first ∨ n < last then
    (d, some (.inputError "Download::update_range(...) Range is out of bounds."))
  else
    let d := if recheck then { d with hashingRanges := rangesInsert (first, last) d.hashingRanges } else d
    let d := if clear ∨ recheck then
      d.writeBits fun i ↦ d.fileList.bitfield.bits i && !decide (first ≤ i ∧ i < last) else d
    (d, none)

def andThen (k : ResumeDownload n → ResumeDownload n × Option ResumeFault) :
    ResumeDownload n × Option ResumeFault → ResumeDownload n × Option ResumeFault
  | (d, some e) => (d, some e)
  | (d, none) => k d

def setFlags (j : ℕ) (flags : FileFlags) (d : ResumeDownload n) : ResumeDownload n :=
  { d with flags := Function.update d.flags j flags }

end ResumeDownload

def savedBit (s : Bytes) (c : ℕ) : Bool := s.getD (c / 8) 0 &&& (1 <<< (7 - UInt8.ofNat (c % 8))) ≠ 0

section

variable {n : ℕ}

/-- `resume_load_bitfield`. There is no result where it returns false. -/
def resumeLoadBitfield (object : Object) (d : ResumeDownload n) :
    Except ResumeFault (Option (ResumeDownload n)) := do
  match ← object.keyString "bitfield" with
  | some bitfield =>
    if bitfield.length ≠ (n + 7) % 2 ^ 32 / 8 then .ok none
    else
      let d ← d.setBitfield fun c ↦ savedBit bitfield c
      .ok (some d)
  | none =>
    match ← object.keyValue "bitfield" with
    | some chunksDone =>
      if chunksDone.toInt = n then
        let d ← d.setBitfield fun _ ↦ true
        .ok (some d)
      else if chunksDone = 0 then
        let d ← d.setBitfield fun _ ↦ false
        .ok (some d)
      else .ok none
    | none => .ok none

def resumeLoadFile (j : ℕ) (f : File) (entry : Object) (fs : FileStat) (d : ResumeDownload n) :
    ResumeDownload n × Option ResumeFault :=
  if f.isPadding then (d, none)
  else
    match entry.keyValue "mtime" with
    | .error e => (d, some e)
    | .ok none => (d.setFlags j ⟨true, true⟩).updateRange true true f.rangeFirst f.rangeSecond
    | .ok (some mtimeValue) =>
      let d := d.setFlags j ⟨false, false⟩
      if mtimeValue = ~~~0 ∨ mtimeValue = ~~~1 then
        let d := if mtimeValue = ~~~0 then d.setFlags j ⟨true, true⟩ else d
        d.updateRange fs.exist true f.rangeFirst f.rangeSecond
      else if fs.size ≠ f.sizeBytes then
        (d.setFlags j ⟨false, true⟩).updateRange true true f.rangeFirst f.rangeSecond
      else if mtimeValue = ~~~3 then (d, none)
      else if mtimeValue = ~~~2 ∨ mtimeValue ≠ fs.modifiedTime then
        d.updateRange true true f.rangeFirst f.rangeSecond
      else (d, none)

/-- The loop of `resume_load_progress` over the files with their entries, from position `j`. -/
def resumeLoadFiles (stats : ℕ → FileStat) : ℕ → List (File × Object) → ResumeDownload n →
    ResumeDownload n × Option ResumeFault
  | _, [], d => (d, none)
  | j, (f, entry) :: l, d =>
    ResumeDownload.andThen (resumeLoadFiles stats (j + 1) l) (resumeLoadFile j f entry (stats j) d)

def words : Bytes → List ℕ
  | a :: b :: c :: d :: s => (((a.toNat * 256 + b.toNat) * 256 + c.toNat) * 256 + d.toNat) :: words s
  | _ => []

def resumeUncertain : List ℕ → ResumeDownload n → ResumeDownload n × Option ResumeFault
  | [], d => (d, none)
  | i :: l, d =>
    ResumeDownload.andThen (resumeUncertain l) (d.updateRange true true i ((i + 1) % 2 ^ 32))

def uncertainPieces (loadDate : UInt32) (object : Object) : Except ResumeFault (List ℕ) := do
  match ← object.keyString "uncertain_pieces" with
  | none => .ok []
  | some uncertain =>
    match ← object.keyValue "uncertain_pieces.timestamp" with
    | none => .ok []
    | some timestamp => if (loadDate.toNat : ℤ) ≤ timestamp.toInt then .ok [] else .ok (words uncertain)

def resumeLoadUncertainPieces (loadDate : UInt32) (object : Object) (d : ResumeDownload n) :
    ResumeDownload n × Option ResumeFault :=
  match uncertainPieces loadDate object with
  | .error e => (d, some e)
  | .ok l => resumeUncertain l d

/-- `resume_load_progress`: the download it leaves, and the error if one is raised. -/
def resumeLoadProgress (stats : ℕ → FileStat) (loadDate : UInt32) (object : Object) (d : ResumeDownload n) :
    ResumeDownload n × Option ResumeFault :=
  match object.keyList "files" with
  | .error e => (d, some e)
  | .ok none => (d, none)
  | .ok (some files) =>
    if files.length ≠ d.fileList.files.length then (d, none)
    else
      match resumeLoadBitfield object d with
      | .error e => (d, some e)
      | .ok none => (d, none)
      | .ok (some d) =>
        ResumeDownload.andThen (resumeLoadUncertainPieces loadDate object)
          (resumeLoadFiles stats 0 (d.fileList.files.zip files) d)

end

namespace ResumeDownload

variable {n : ℕ} {d : ResumeDownload n}

structure Ready (d : ResumeDownload n) : Prop where
  checked : d.checked = false
  allocated : d.allocated = true

def IsSet (d : ResumeDownload n) (c : ℕ) : Prop := d.fileList.bitfield.IsSet c

/-- No error is raised, and no chunk with the property is left set. -/
structure Clears (bad : ℕ → Prop) (d : ResumeDownload n) (r : ResumeDownload n × Option ResumeFault) : Prop where
  ready : r.1.Ready
  noFault : r.2 = none
  isSet : ∀ c, r.1.IsSet c → d.IsSet c ∧ ¬ bad c

variable {bad bad' : ℕ → Prop} {r : ResumeDownload n × Option ResumeFault} {j first last : ℕ} {flags : FileFlags}

theorem clears_nothing (h : d.Ready) : Clears (fun _ ↦ False) d (d, none) :=
  ⟨h, rfl, fun _ hc ↦ ⟨hc, not_false⟩⟩

theorem Clears.mono (h : Clears bad d r) (himp : ∀ c, bad' c → bad c) : Clears bad' d r :=
  ⟨h.ready, h.noFault, fun c hc ↦ (h.isSet c hc).imp_right (mt (himp c))⟩

theorem Clears.andThen {k : ResumeDownload n → ResumeDownload n × Option ResumeFault} (h : Clears bad d r)
    (h' : Clears bad' r.1 (k r.1)) : Clears (fun c ↦ bad c ∨ bad' c) d (andThen k r) := by
  obtain ⟨d₁, e⟩ := r
  obtain rfl : e = none := h.noFault
  refine ⟨h'.ready, h'.noFault, fun c hc ↦ ?_⟩
  obtain ⟨hset, hnot'⟩ := h'.isSet c hc
  obtain ⟨hset, hnot⟩ := h.isSet c hset
  exact ⟨hset, not_or.mpr ⟨hnot, hnot'⟩⟩

theorem Clears.of_setFlags (h : Clears bad (d.setFlags j flags) r) : Clears bad d r :=
  ⟨h.ready, h.noFault, h.isSet⟩

theorem Ready.setFlags (h : d.Ready) (j : ℕ) (flags : FileFlags) : (d.setFlags j flags).Ready :=
  ⟨h.checked, h.allocated⟩

theorem clears_updateRange (h : d.Ready) (recheck : Bool) (hfirst : first ≤ last) (hlast : last ≤ n) :
    Clears (fun c ↦ first ≤ c ∧ c < last) d (d.updateRange recheck true first last) := by
  have hallocated : ¬ (!d.allocated) = true := by simp [h.allocated]
  rw [updateRange, if_neg (Bool.eq_false_iff.mp h.checked), if_neg hallocated, if_neg (by omega)]
  refine ⟨?_, rfl, fun c hc ↦ ?_⟩
  · cases recheck <;> exact ⟨h.checked, h.allocated⟩
  · obtain ⟨hlt, hbit⟩ := hc
    cases recheck <;>
    · simp only [writeBits, Bitfield.update, true_or, if_true, Bool.and_eq_true, Bool.not_eq_true',
        decide_eq_false_iff_not] at hbit
      exact ⟨⟨hlt, hbit.1⟩, hbit.2⟩

end ResumeDownload

open Layout ResumeDownload

def Saved (object : Object) (n c : ℕ) : Prop :=
  c < n ∧ match object.keyString "bitfield" with
    | .error _ => False
    | .ok (some s) => s.length = (n + 7) % 2 ^ 32 / 8 ∧ savedBit s c
    | .ok none => ∃ v : Int64, object.keyValue "bitfield" = .ok (some v) ∧ v.toInt = n

def PassesCheck (f : File) (entry : Object) (fs : FileStat) : Prop :=
  fs.size = f.sizeBytes ∧ ∃ v : Int64, entry.keyValue "mtime" = .ok (some v) ∧ (v = fs.modifiedTime ∨ v = ~~~3)

def Uncertain (loadDate : UInt32) (object : Object) (c : ℕ) : Prop :=
  ∃ (s : Bytes) (timestamp : Int64), object.keyString "uncertain_pieces" = .ok (some s) ∧
    object.keyValue "uncertain_pieces.timestamp" = .ok (some timestamp) ∧
    timestamp.toInt < loadDate.toNat ∧ c ∈ words s

/-- The resume object vouches for a chunk of a torrent, for files as `stats` finds them. -/
structure Verified (t : Layout) (stats : ℕ → FileStat) (loadDate : UInt32) (object : Object) (files : List Object)
    (c : ℕ) : Prop where
  saved : Saved object t.sizeChunks c
  passes : ∀ (j : ℕ) (f : File) (entry : Object), (split t.chunkSize 0 t.entries)[j]? = some f →
    files[j]? = some entry → ¬ f.isPadding → f.Overlaps t.chunkSize c → PassesCheck f entry (stats j)
  certain : ¬ Uncertain loadDate object c

def FilesOf (t : Layout) (object : Object) (files : List Object) : Prop :=
  object.keyList "files" = .ok (some files) ∧ files.length = (split t.chunkSize 0 t.entries).length

/-- The chunks of a torrent are counted in 32 bits, each entry of `files` is a map, and the uncertain pieces are chunks. -/
structure Loadable (t : Layout) (object : Object) : Prop where
  chunkSize : 0 < t.chunkSize
  chunkCount : t.chunkCount < 2 ^ 32
  entries : ∀ files, object.keyList "files" = .ok (some files) → ∀ entry ∈ files, ∃ flags m, entry = .map flags m
  uncertain : ∀ s, object.keyString "uncertain_pieces" = .ok (some s) → ∀ i ∈ words s, i < t.sizeChunks

section Loops

variable {n : ℕ} {d : ResumeDownload n}

/-- A chunk in the range of a file that is not as it was saved. -/
def Fails (f : File) (entry : Object) (fs : FileStat) (c : ℕ) : Prop :=
  ¬ f.isPadding ∧ ¬ PassesCheck f entry fs ∧ f.rangeFirst ≤ c ∧ c < f.rangeSecond

theorem clears_resumeLoadFile (h : d.Ready) (j : ℕ) {f : File} {entry : Object} (fs : FileStat)
    (hfirst : f.rangeFirst ≤ f.rangeSecond) (hsecond : f.rangeSecond ≤ n) (hentry : ∃ flags m, entry = .map flags m) :
    Clears (Fails f entry fs) d (resumeLoadFile j f entry fs d) := by
  have hrange (d : ResumeDownload n) (hd : d.Ready) (recheck : Bool) :
      Clears (Fails f entry fs) d (d.updateRange recheck true f.rangeFirst f.rangeSecond) :=
    (clears_updateRange hd recheck hfirst hsecond).mono fun c hc ↦ hc.2.2
  have hkeep (hpass : PassesCheck f entry fs) : Clears (Fails f entry fs) d (d.setFlags j ⟨false, false⟩, none) :=
    ((clears_nothing (h.setFlags _ _)).mono fun c hc ↦ hc.2.1 hpass).of_setFlags
  rw [resumeLoadFile]
  by_cases hp : f.isPadding = true
  · rw [if_pos hp]
    exact (clears_nothing h).mono fun c hc ↦ hc.1 hp
  rw [if_neg hp]
  cases hmtime : entry.keyValue "mtime" with
  | error e =>
    obtain ⟨flags, m, rfl⟩ := hentry
    revert hmtime
    simp only [Object.keyValue, Object.findKey]
    cases (m.find? fun p ↦ p.1 = ascii "mtime").map Prod.snd with
    | none => nofun
    | some o => cases o <;> nofun
  | ok o =>
    cases o with
    | none => exact (hrange _ (h.setFlags _ _) _).of_setFlags
    | some v =>
      dsimp only
      split_ifs with hmarked _ hsize h3 hold
      · exact (hrange _ ((h.setFlags _ _).setFlags _ _) _).of_setFlags.of_setFlags
      · exact (hrange _ (h.setFlags _ _) _).of_setFlags
      · exact (hrange _ ((h.setFlags _ _).setFlags _ _) _).of_setFlags.of_setFlags
      · exact hkeep ⟨not_not.mp hsize, v, hmtime, .inr h3⟩
      · exact (hrange _ (h.setFlags _ _) _).of_setFlags
      · exact hkeep ⟨not_not.mp hsize, v, hmtime, .inl (not_not.mp (not_or.mp hold).2)⟩

theorem clears_resumeLoadFiles (stats : ℕ → FileStat) (j : ℕ) (l : List (File × Object)) (h : d.Ready)
    (hrange : ∀ p ∈ l, p.1.rangeFirst ≤ p.1.rangeSecond ∧ p.1.rangeSecond ≤ n)
    (hentry : ∀ p ∈ l, ∃ flags m, p.2 = .map flags m) :
    Clears (fun c ↦ ∃ i f entry, l[i]? = some (f, entry) ∧ Fails f entry (stats (j + i)) c) d
      (resumeLoadFiles stats j l d) := by
  induction l generalizing j d with
  | nil => exact (clears_nothing h).mono fun c ⟨i, _, _, hi, _⟩ ↦ absurd hi nofun
  | cons p l ih =>
    obtain ⟨f, entry⟩ := p
    obtain ⟨hf, hrange⟩ := List.forall_mem_cons.mp hrange
    obtain ⟨he, hentry⟩ := List.forall_mem_cons.mp hentry
    have hfile := clears_resumeLoadFile h j (stats j) hf.1 hf.2 he
    refine (hfile.andThen (ih (j + 1) hfile.ready hrange hentry)).mono fun c ⟨i, f', entry', hi, hc⟩ ↦ ?_
    cases i with
    | zero =>
      cases hi
      exact .inl hc
    | succ i => exact .inr ⟨i, f', entry', hi, by rwa [Nat.add_right_comm]⟩

theorem clears_resumeUncertain (hn : n < 2 ^ 32) (l : List ℕ) (h : d.Ready) (hl : ∀ i ∈ l, i < n) :
    Clears (· ∈ l) d (resumeUncertain l d) := by
  induction l generalizing d with
  | nil => exact (clears_nothing h).mono fun _ ↦ List.not_mem_nil
  | cons i l ih =>
    obtain ⟨hi, hl⟩ := List.forall_mem_cons.mp hl
    have hmod : (i + 1) % 2 ^ 32 = i + 1 := Nat.mod_eq_of_lt (by omega)
    have hrange := clears_updateRange h true (Nat.le_add_right i 1) hi
    rw [resumeUncertain, hmod]
    refine (hrange.andThen (ih hrange.ready hl)).mono fun c hc ↦ (List.mem_cons.mp hc).imp_left ?_
    rintro rfl
    exact ⟨le_rfl, Nat.lt_succ_self _⟩

theorem resumeLoadBitfield_spec {object : Object} {d' : ResumeDownload n} (h : d.checked = false)
    (hload : resumeLoadBitfield object d = .ok (some d')) :
    d'.Ready ∧ d'.fileList.files = d.fileList.files ∧ ∀ c, d'.IsSet c → Saved object n c := by
  have hset (bits : Fin n → Bool) (hbits : ∀ c, bits c = true → Saved object n c)
      (heq : (d.setBitfield bits >>= fun d ↦ .ok (some d)) = .ok (some d')) :
      d'.Ready ∧ d'.fileList.files = d.fileList.files ∧ ∀ c, d'.IsSet c → Saved object n c := by
    rw [setBitfield, if_neg (Bool.eq_false_iff.mp h)] at heq
    cases heq
    exact ⟨⟨h, rfl⟩, rfl, fun c ⟨hc, hbit⟩ ↦ hbits ⟨c, hc⟩ hbit⟩
  rw [resumeLoadBitfield] at hload
  cases hstr : object.keyString "bitfield" with
  | error e =>
    rw [hstr] at hload
    cases hload
  | ok o =>
    rw [hstr, Lib.Outcome.ok_bind] at hload
    cases o with
    | some s =>
      dsimp only at hload
      split_ifs at hload with hlen
      · cases hload
      · exact hset _ (fun c hc ↦ ⟨c.isLt, by rw [hstr]; exact ⟨not_not.mp hlen, hc⟩⟩) hload
    | none =>
      cases hval : object.keyValue "bitfield" with
      | error e =>
        rw [hval] at hload
        cases hload
      | ok o =>
        rw [hval, Lib.Outcome.ok_bind] at hload
        cases o with
        | none => cases hload
        | some v =>
          dsimp only at hload
          split_ifs at hload with hn
          · exact hset _ (fun c _ ↦ ⟨c.isLt, by rw [hstr]; exact ⟨v, hval, hn⟩⟩) hload
          · exact hset _ (fun c hc ↦ absurd hc Bool.false_ne_true) hload
          · cases hload

end Loops

section Progress

variable {t : Layout} {object : Object}

theorem range_of_mem_split (h : Loadable t object) {f : File} (hf : f ∈ split t.chunkSize 0 t.entries) :
    (f.rangeFirst ≤ f.rangeSecond ∧ f.rangeSecond ≤ t.sizeChunks) ∧
      ∀ c, f.Overlaps t.chunkSize c → f.rangeFirst ≤ c ∧ c < f.rangeSecond := by
  obtain ⟨j, hj, padding, rfl⟩ := FileList.mem_split hf
  have hfirst := rangeFirst_file h.chunkSize h.chunkCount j padding
  have hsecond := (rangeSecond_file h.chunkSize h.chunkCount j padding).trans
    (second_eq h.chunkSize h.chunkCount hj).symm
  rw [hfirst, hsecond]
  refine ⟨⟨first_le_second h.chunkSize h.chunkCount hj, second_le h.chunkSize h.chunkCount hj⟩, fun c hc ↦ ?_⟩
  refine (overlaps_iff h.chunkSize h.chunkCount hj ?_ ?_ c).mp hc
  all_goals
    rw [file, File.setRange]
    split_ifs <;> rfl

theorem uncertainPieces_spec (loadDate : UInt32) (object : Object) : match uncertainPieces loadDate object with
    | .ok l => ∀ i, i ∈ l ↔ Uncertain loadDate object i
    | .error _ => ∀ i, ¬ Uncertain loadDate object i := by
  rw [uncertainPieces]
  cases hs : object.keyString "uncertain_pieces" with
  | error e => simp [Uncertain, hs]
  | ok o =>
    cases o with
    | none => simp [Uncertain, hs]
    | some s =>
      cases hstamp : object.keyValue "uncertain_pieces.timestamp" with
      | error e => simp [Uncertain, hs, hstamp]
      | ok o =>
        cases o with
        | none => simp [Uncertain, hs, hstamp]
        | some timestamp =>
          by_cases hle : (loadDate.toNat : ℤ) ≤ timestamp.toInt
          · simp [Uncertain, hs, hstamp, hle]
          · simp [Uncertain, hs, hstamp, hle, not_le.mp hle]

theorem certain_of_isSet (h : Loadable t object) {loadDate : UInt32} {d : ResumeDownload t.sizeChunks} (hd : d.Ready)
    {c : ℕ} (hc : (resumeLoadUncertainPieces loadDate object d).1.IsSet c) :
    d.IsSet c ∧ ¬ Uncertain loadDate object c := by
  have hspec := uncertainPieces_spec loadDate object
  rw [resumeLoadUncertainPieces] at hc
  cases hl : uncertainPieces loadDate object with
  | error e =>
    rw [hl] at hc hspec
    exact ⟨hc, hspec c⟩
  | ok l =>
    rw [hl] at hc hspec
    have hin : ∀ i ∈ l, i < t.sizeChunks := by
      intro i hi
      obtain ⟨s, _, hs, _, _, hmem⟩ := (hspec i).mp hi
      exact h.uncertain s hs i hmem
    rw [← hspec c]
    exact (clears_resumeUncertain (Nat.mod_lt _ (by omega)) l hd hin).isSet c hc

variable (isWanted : Fin t.sizeChunks → Bool) (stats : ℕ → FileStat) (loadDate : UInt32)

end Progress

def savedObject (chunks : Int64) (files : List Object) (uncertain : Bytes) : Object :=
  .map 0 [(ascii "bitfield", .value 0 chunks), (ascii "files", .list 0 files),
    (ascii "uncertain_pieces", .string 0 uncertain), (ascii "uncertain_pieces.timestamp", .value 0 0)]

def mtimeEntry (mtime : Int64) : Object := .map 0 [(ascii "mtime", .value 0 mtime)]

/-- A torrent of 2^32 + 10 chunks in two files. The range of the first ends at chunk 2. -/
def largeLayout : Layout := ⟨2048, [((2 ^ 32 + 2) * 2048, false), (8 * 2048, false)]⟩

end LibTorrent
