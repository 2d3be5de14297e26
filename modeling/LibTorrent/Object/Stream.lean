import LibTorrent.Object.Spelling

namespace LibTorrent

open Lib Lib.Decimal

structure IStream where
  rest : Bytes
  eofbit : Bool
  failbit : Bool

namespace IStream

def good (input : IStream) : Bool := !input.eofbit && !input.failbit

def setFail (input : IStream) : IStream := { input with failbit := true }

def peek (input : IStream) : Option UInt8 × IStream :=
  if !input.good then (none, input.setFail)
  else
    match input.rest with
    | [] => (none, { input with eofbit := true })
    | c :: _ => (some c, input)

def get (input : IStream) : Option UInt8 × IStream :=
  if !input.good then (none, input.setFail)
  else
    match input.rest with
    | [] => (none, { input with eofbit := true, failbit := true })
    | c :: r => (some c, { input with rest := r })

def read (n : ℕ) (input : IStream) : Bytes × IStream :=
  if !input.good then ([], input.setFail)
  else if input.rest.length < n then (input.rest, ⟨[], true, true⟩)
  else (input.rest.take n, { input with rest := input.rest.drop n })

/-- The formatted extraction of a number, in the classic locale. There is no result where it
fails, since the variable is then not looked at. -/
def extract {ν : Type} (convert : Numeral → Option ν) (input : IStream) : Option ν × IStream :=
  if !input.good then (none, input.setFail)
  else
    let (n, r) := Numeral.scan input.rest
    match if n.digits = [] then none else convert n with
    | none => (none, ⟨r, r.isEmpty, true⟩)
    | some v => (some v, ⟨r, r.isEmpty, false⟩)

end IStream

namespace Numeral

def toInt64 (n : Numeral) : Option Int64 :=
  if -2 ^ 63 ≤ n.denoted ∧ n.denoted < 2 ^ 63 then some (Int64.ofInt n.denoted) else none

/-- The conversion to `uint32_t`. A minus sign negates the number after the check of its range. -/
def toUInt32 (n : Numeral) : Option UInt32 :=
  if value n.digits < 2 ^ 32 then
    some (if n.sign = some true then -UInt32.ofNat (value n.digits) else UInt32.ofNat (value n.digits))
  else none

end Numeral

/-- The loop of `object_read_string`, which reads at most 64 KiB at once. -/
def readChunks : ℕ → ℕ → Bytes → IStream → Option Bytes × IStream
  | 0, _, _, input => (none, input)
  | n + 1, remaining, str, input =>
    if remaining = 0 then (if input.failbit then none else some str, input)
    else
      let readSize := min remaining (1 <<< 16)
      let (b, input) := input.read readSize
      if b.length ≠ readSize then (none, input) else readChunks n (remaining - readSize) (str ++ b) input

def objectReadString (input : IStream) : Option Bytes × IStream :=
  let (remaining, input) := input.extract Numeral.toUInt32
  match remaining with
  | none => (none, input)
  | some remaining =>
    let (c, input) := input.get
    if c ≠ some (ch ':') then (none, input)
    else if (1 : UInt32) <<< 25 < remaining then (none, input)
    else readChunks (remaining.toNat + 1) remaining.toNat [] input

/-- A reader of one object from a stream. A failure is left in the state of the stream. -/
abbrev StreamReader := IStream → Object × IStream

/-- The end of `object_read_bencode` that is reached by `break`. -/
def streamFailed (input : IStream) : Object × IStream := (.none 0, input.setFail)

/-- The list loop, with a bound on its turns: each of them takes a byte or leaves a stream that
is not good. -/
def streamList (read : StreamReader) : ℕ → List Object × Bool → IStream → Object × IStream
  | 0, _, input => streamFailed input
  | n + 1, (l, u), input =>
    if !input.good then streamFailed input
    else
      let (c, input) := input.peek
      if c = some (ch 'e') then (.list (Object.mark u) l, input.get.2)
      else
        let (o, input) := read input
        streamList read n (l ++ [o], u || o.isUnordered) input

def streamMap (read : StreamReader) : ℕ → List (Bytes × Object) × Bytes × Bool → IStream → Object × IStream
  | 0, _, input => streamFailed input
  | n + 1, (m, last, u), input =>
    if !input.good then streamFailed input
    else
      let (c, input) := input.peek
      if c = some (ch 'e') then (.map (Object.mark u) m, input.get.2)
      else
        let (str, input) := objectReadString input
        match str with
        | none => streamFailed input
        | some str =>
          let u := u || (decide (str ≤ last) && !m.isEmpty)
          let (o, input) := read input
          streamMap read n (OrderedMap.insert m str o, str, u || o.isUnordered) input

/-- The switch of `object_read_bencode`. Elements are read by `inner`, which is absent where
another level would be too deep. -/
def streamItem (inner : Option StreamReader) (input : IStream) : Object × IStream :=
  let (c, input) := input.peek
  match c with
  | none => streamFailed input
  | some c =>
    if c = ch 'i' then
      let (v, input) := input.get.2.extract Numeral.toInt64
      let (e, input) := input.get
      match v with
      | none => streamFailed input
      | some v => if e = some (ch 'e') then (.value 0 v, input) else streamFailed input
    else if c = ch 'l' then
      match inner with
      | none => streamFailed input.get.2
      | some read => streamList read (input.get.2.rest.length + 2) ([], false) input.get.2
    else if c = ch 'd' then
      match inner with
      | none => streamFailed input.get.2
      | some read => streamMap read (input.get.2.rest.length + 2) ([], [], false) input.get.2
    else if isDigit c then
      let (str, input) := objectReadString input
      match str with
      | none => streamFailed input
      | some str => (.string 0 str, input)
    else streamFailed input

def streamLevels : ℕ → StreamReader
  | 0 => streamItem none
  | n + 1 => streamItem (some (streamLevels n))

/-- `object_read_bencode` on a text: the object and the rest of the text, unless the stream is
left failed. -/
def objectReadBencode (s : Bytes) (depth : ℕ) : Option (Object × Bytes) :=
  let (o, input) := streamLevels (1023 - depth) ⟨s, false, false⟩
  if input.failbit then none else some (o, input.rest)

open List Numeral UInt32

def scanned {ν : Type} (convert : Numeral → Option ν) (e : UInt8) (s : Bytes) : Option (ν × Bytes) :=
  let (n, r) := scan s
  match if n.digits = [] then none else convert n with
  | none => none
  | some v =>
    match r with
    | [] => none
    | c :: r => if c = e then some (v, r) else none

def streamRules : Rules Object :=
  markedRules (scanned toInt64 (ch 'e')) fun s ↦ (scanned toUInt32 (ch ':') s).bind fun (k, r) ↦
    if (1 : UInt32) <<< 25 < k ∨ r.length < k.toNat then none else some (r.take k.toNat, r.drop k.toNat)

theorem scanned_eq_some {ν : Type} {convert : Numeral → Option ν} {e : UInt8} (he : Numeral.Ends e) {s r : Bytes}
    {v : ν} :
    scanned convert e s = some (v, r) ↔
      ∃ n : Numeral, n.WellFormed ∧ n.digits ≠ [] ∧ convert n = some v ∧ s = n.text ++ e :: r := by
  constructor
  · intro h
    obtain ⟨hwf, htext⟩ := scan_wellFormed s
    rw [scanned] at h
    generalize scan s = p at h hwf htext
    obtain ⟨n, t⟩ := p
    dsimp only at h hwf htext
    split_ifs at h with hd
    cases hv : convert n with
    | none =>
      rw [hv] at h
      cases h
    | some w =>
      rw [hv] at h
      cases t with
      | nil => cases h
      | cons c t =>
        dsimp only at h
        split_ifs at h with hc
        cases h
        exact ⟨n, hwf, hd, hv, by rw [← hc]; exact htext.symm⟩
  · rintro ⟨n, hwf, hd, hv, rfl⟩
    rw [scanned, scan_text hwf he]
    simp [hd, hv]

theorem Numeral.toUInt32_toNat {n : Numeral} (h : value n.digits < 2 ^ 32) {k : UInt32}
    (hk : n.toUInt32 = some k) : k.toNat = n.length := by
  rw [toUInt32, if_pos h] at hk
  rw [length, denoted]
  have hnat : (ofNat (value n.digits)).toNat = value n.digits := by
    rw [toNat_ofNat', Nat.mod_eq_of_lt h]
  split_ifs at hk ⊢ with hneg
  · cases hk
    have hs : size = 2 ^ 32 := rfl
    rw [toNat_neg, hnat, hs]
    omega
  · cases hk
    omega

theorem takes_streamRules : streamRules.Takes Lexeme.Streamed where
  marked := ⟨_, _, rfl⟩
  int_iff s v r := by
    rw [streamRules, markedRules, scanned_eq_some ends_e]
    constructor
    · rintro ⟨n, hwf, hd, hv, rfl⟩
      rw [toInt64] at hv
      split_ifs at hv with hrange
      cases hv
      exact ⟨n, hwf, ⟨hd, hrange⟩, rfl, rfl⟩
    · rintro ⟨n, hwf, ⟨hd, hrange⟩, rfl, rfl⟩
      exact ⟨n, hwf, hd, if_pos hrange, rfl⟩
  str_iff s str r hs := by
    rw [streamRules, markedRules]
    simp only [Option.bind_eq_some_iff, Prod.exists, scanned_eq_some ends_colon]
    constructor
    · rintro ⟨k, t, ⟨n, hwf, hd, hv, rfl⟩, h⟩
      split_ifs at h with hno
      cases h
      have hlt : value n.digits < 2 ^ 32 := by
        by_contra hge
        rw [toUInt32, if_neg hge] at hv
        cases hv
      refine ⟨n, ⟨hwf, ?_⟩, ⟨hd, hlt⟩, by rw [take_append_drop]⟩
      rw [length_take, ← toUInt32_toNat hlt hv]
      omega
    · rintro ⟨n, ⟨hwf, hlen⟩, ⟨hd, hlt⟩, rfl⟩
      obtain ⟨k, hk⟩ : ∃ k, n.toUInt32 = some k := ⟨_, if_pos hlt⟩
      have hnat := toUInt32_toNat hlt hk
      refine ⟨k, str ++ r, ⟨n, hwf, hd, hk, rfl⟩, ?_⟩
      simp only [length_append, length_cons, inputLimit] at hs
      have h25 : ((1 : UInt32) <<< 25).toNat = 2 ^ 25 := rfl
      rw [if_neg, hnat, ← hlen, take_left, drop_left]
      rw [lt_iff_toNat_lt, h25, length_append, hnat, ← hlen]
      omega
  str_moves s str r h := by
    rw [streamRules, markedRules] at h
    simp only [Option.bind_eq_some_iff, Prod.exists, scanned_eq_some ends_colon] at h
    obtain ⟨k, t, ⟨n, -, -, -, rfl⟩, h⟩ := h
    split_ifs at h
    cases h
    simp only [length_append, length_cons, length_drop]
    omega
  marks := ⟨trivial, trivial, trivial⟩

theorem takes_bufferRules : bufferRules.Takes Lexeme.Buffered where
  marked := ⟨_, _, rfl⟩
  int_iff s v r := by
    rw [bufferRules, markedRules, objectReadBencodeCInteger_eq_some]
    constructor
    · rintro ⟨neg, ds, hds, hsign, rfl, rfl⟩
      cases neg with
      | true =>
        exact ⟨⟨[], some true, ds⟩, ⟨by simp, hds⟩, ⟨rfl, .inr ⟨rfl, hsign rfl⟩⟩, rfl, rfl⟩
      | false => exact ⟨⟨[], none, ds⟩, ⟨by simp, hds⟩, ⟨rfl, .inl rfl⟩, rfl, rfl⟩
    rintro ⟨⟨blanks, sgn, ds⟩, ⟨-, hds⟩, ⟨rfl, rfl | ⟨rfl, hsign⟩⟩, rfl, rfl⟩
    · exact ⟨false, ds, hds, (by rintro ⟨⟩), rfl, rfl⟩
    · exact ⟨true, ds, hds, fun _ ↦ hsign, rfl, rfl⟩
  str_iff s str r hs := by
    rw [bufferRules, markedRules, objectReadBencodeCString_eq_some]
    have hlength (ds : Bytes) : length ⟨[], none, ds⟩ = value ds % 2 ^ 32 := by
      rw [Numeral.length, Numeral.denoted, if_neg (by simp)]
      dsimp only
      omega
    constructor
    · rintro ⟨ds, hds, rfl, hlen, -⟩
      simp only [length_append, length_cons, inputLimit] at hs
      have hne : ds ≠ [] := by
        rintro rfl
        rw [stringLength, if_pos rfl] at hlen
        omega
      rw [stringLength, if_neg hne] at hlen
      exact ⟨⟨[], none, ds⟩, ⟨⟨by simp, hds⟩, hlen.trans (hlength ds).symm⟩, ⟨rfl, rfl, hne⟩, rfl⟩
    · rintro ⟨⟨blanks, sgn, ds⟩, ⟨⟨-, hds⟩, hlen⟩, ⟨rfl, rfl, hne⟩, rfl⟩
      simp only [length_append, length_cons, inputLimit] at hs
      refine ⟨ds, hds, rfl, ?_, ?_⟩
      · rw [stringLength, if_neg hne, hlen, hlength]
      · omega
  str_moves s str r h := objectReadBencodeCString_moves h
  marks := ⟨trivial, trivial, trivial⟩

open IStream Lib.Cursor Lib.Lexing List Nat Numeral Option Rules

def IStream.of (s : Bytes) : IStream := ⟨s, false, false⟩

theorem readChunks_of (n remaining : ℕ) (str t : Bytes) (hn : remaining < n) : (remaining ≤ t.length →
      readChunks n remaining str (.of t) = (some (str ++ t.take remaining), .of (t.drop remaining))) ∧
    (t.length < remaining → (readChunks n remaining str (.of t)).1 = none) := by
  induction n generalizing remaining str t with
  | zero => exact absurd hn (not_lt_zero _)
  | succ n ih =>
    rw [readChunks]
    by_cases h0 : remaining = 0
    · subst h0
      simp [of]
    rw [if_neg h0]
    generalize hk : min remaining (1 <<< 16) = k
    by_cases hlt : t.length < k
    · have hread : (of t).read k = (t, ⟨[], true, true⟩) := if_pos hlt
      dsimp only
      rw [hread, if_pos (by dsimp only; omega)]
      exact ⟨fun hle ↦ by omega, fun _ ↦ rfl⟩
    have hread : (of t).read k = (t.take k, .of (t.drop k)) := if_neg hlt
    have hlen : (t.take k).length = k := by
      rw [length_take]
      omega
    obtain ⟨hyes, hno⟩ := ih (remaining - k) (str ++ t.take k) (t.drop k) (by omega)
    dsimp only
    rw [hread]
    rw [if_neg (not_not.mpr hlen)]
    rw [length_drop] at hyes hno
    refine ⟨fun hle ↦ ?_, fun hlt ↦ hno (by omega)⟩
    rw [hyes (by omega), append_assoc, ← take_add, drop_drop]
    have hsum : k + (remaining - k) = remaining := by omega
    rw [hsum]

variable {ν : Type} {input : IStream}

theorem extract_of (convert : Numeral → Option ν) (s : Bytes) : (of s).extract convert =
      match if (scan s).1.digits = [] then none else convert (scan s).1 with
      | none => (none, ⟨(scan s).2, (scan s).2.isEmpty, true⟩)
      | some v => (some v, ⟨(scan s).2, (scan s).2.isEmpty, false⟩) := rfl

theorem extract_get (convert : Numeral → Option ν) (e : UInt8) (s : Bytes) :
    (∀ v r, scanned convert e s = some (v, r) →
      ∃ input, (of s).extract convert = (some v, input) ∧ input.get = (some e, .of r)) ∧
    (scanned convert e s = none →
      ((of s).extract convert).1 = none ∨ ((of s).extract convert).2.get.1 ≠ some e) := by
  rw [extract_of, scanned]
  generalize scan s = p
  obtain ⟨n, t⟩ := p
  dsimp only
  cases if n.digits = [] then none else convert n with
  | none => exact ⟨by simp, fun _ ↦ .inl rfl⟩
  | some v =>
    cases t with
    | nil => exact ⟨by simp, fun _ ↦ .inr (by rintro ⟨⟩)⟩
    | cons c t =>
      by_cases hc : c = e
      · subst hc
        dsimp only
        rw [if_pos rfl]
        refine ⟨fun w r h ↦ ?_, by simp⟩
        cases h
        exact ⟨⟨c :: t, false, false⟩, rfl, rfl⟩
      dsimp only
      rw [if_neg hc]
      refine ⟨by simp, fun _ ↦ .inr fun hget ↦ hc ?_⟩
      exact some.inj hget

theorem objectReadString_of (s : Bytes) :
    (∀ str r, streamRules.str s = some (str, r) → objectReadString (.of s) = (some str, .of r)) ∧
    (streamRules.str s = none → (objectReadString (.of s)).1 = none) := by
  obtain ⟨hyes, hno⟩ := extract_get toUInt32 (ch ':') s
  rw [streamRules, markedRules]
  dsimp only
  cases hscan : scanned toUInt32 (ch ':') s with
  | none =>
    refine ⟨by simp, fun _ ↦ ?_⟩
    have hno := hno hscan
    rw [objectReadString]
    generalize (of s).extract toUInt32 = p at hno
    obtain ⟨k, input⟩ := p
    cases k with
    | none => rfl
    | some k =>
      have hget := hno.resolve_left (by simp)
      dsimp only
      rw [if_pos hget]
  | some p =>
    obtain ⟨k, t⟩ := p
    obtain ⟨input, hext, hget⟩ := hyes k t hscan
    have hrun : objectReadString (.of s) =
        if (1 : UInt32) <<< 25 < k then (none, .of t) else readChunks (k.toNat + 1) k.toNat [] (.of t) := by
      rw [objectReadString, hext]
      dsimp only
      rw [hget]
      exact if_neg (not_not.mpr rfl)
    obtain ⟨hfits, hshort⟩ := readChunks_of (k.toNat + 1) k.toNat [] t (lt_succ_self _)
    rw [hrun, bind_some]
    by_cases hbig : (1 : UInt32) <<< 25 < k
    · rw [if_pos (.inl hbig), if_pos hbig]
      exact ⟨by simp, fun _ ↦ rfl⟩
    rw [if_neg hbig]
    by_cases hlen : t.length < k.toNat
    · rw [if_pos (.inr hlen)]
      exact ⟨by simp, fun _ ↦ hshort hlen⟩
    rw [if_neg (not_or.mpr ⟨hbig, hlen⟩)]
    refine ⟨fun str r h ↦ ?_, by simp⟩
    cases h
    exact hfits (not_lt.mp hlen)

/-- What is read from a stream is what is read from its text, and without that the stream is left failed. -/
def Mirrors {α : Type} (result : Option (α × Bytes)) (f : α → Object) (p : Object × IStream) : Prop :=
  match result with
  | some (a, r) => p = (f a, .of r)
  | none => p.2.failbit = true

theorem Mirrors.map {α : Type} {result : Option (α × Bytes)} {f : α → Object} {p : Object × IStream}
    (h : Mirrors result f p) : Mirrors (result.map fun q ↦ (f q.1, q.2)) id p := by
  cases result with
  | none | some => exact h

/-- A reader of streams that does what a reader of texts does, and leaves a stream that is not
good failed. -/
structure Follows (read : StreamReader) (text : Reader Object) : Prop where
  mirrors : ∀ s, Mirrors (text s) id (read (.of s))
  bad_failed : ∀ input : IStream, input.good = false → (read input).2.failbit = true

theorem good_eq_false (h : input.failbit = true) : input.good = false := by
  simp [good, h]

section Loops

variable {read : StreamReader} {text : Reader Object}

theorem streamList_bad (n : ℕ) (b : List Object × Bool) (h : input.good = false) :
    (streamList read n b input).2.failbit = true := by
  cases n with
  | zero => rfl
  | succ n =>
    rw [streamList, h]
    rfl

theorem streamMap_bad (n : ℕ) (b : List (Bytes × Object) × Bytes × Bool)
    (h : input.good = false) : (streamMap read n b input).2.failbit = true := by
  cases n with
  | zero => rfl
  | succ n =>
    rw [streamMap, h]
    rfl

theorem streamList_of (hf : Follows read text) (hm : text.Moves) (n : ℕ) (b : List Object × Bool) (s : Bytes)
    (hn : s.length < n) :
    Mirrors (loop (ch 'e') (streamRules.listStep text) n b s) (fun b ↦ .list (Object.mark b.2) b.1)
      (streamList read (n + 1) b (.of s)) := by
  induction n generalizing b s with
  | zero => exact absurd hn (not_lt_zero _)
  | succ n ih =>
    obtain ⟨l, u⟩ := b
    cases s with
    | nil =>
      have hbad := hf.bad_failed ⟨[], true, false⟩ rfl
      have hturn : streamList read (n + 1 + 1) (l, u) (.of []) =
          streamList read (n + 1) (l ++ [(read ⟨[], true, false⟩).1], u || (read ⟨[], true, false⟩).1.isUnordered)
            (read ⟨[], true, false⟩).2 := by
        exact if_neg (by rintro ⟨⟩)
      rw [hturn]
      exact streamList_bad (n + 1) _ (good_eq_false hbad)
    | cons a s =>
      by_cases ha : a = ch 'e'
      · subst ha
        rw [loop, if_pos rfl]
        exact rfl
      have hturn : streamList read (n + 1 + 1) (l, u) (.of (a :: s)) =
          streamList read (n + 1) (l ++ [(read (.of (a :: s))).1], u || (read (.of (a :: s))).1.isUnordered)
            (read (.of (a :: s))).2 := by
        exact if_neg fun h ↦ ha (some.inj h)
      rw [loop, if_neg ha, hturn, listStep]
      have hread := hf.mirrors (a :: s)
      cases htext : text (a :: s) with
      | none =>
        rw [htext] at hread
        exact streamList_bad _ _ (good_eq_false hread)
      | some p =>
        have hlt := hm _ _ _ htext
        rw [htext] at hread
        rw [show read _ = _ from hread]
        exact ih _ _ (Nat.lt_of_lt_of_le hlt (Nat.lt_succ_iff.mp hn))

theorem streamMap_key {a : UInt8} {s last : Bytes} {m : List (Bytes × Object)} {u : Bool} {n : ℕ} (ha : a ≠ ch 'e')
    (p : Option Bytes × IStream) (hp : objectReadString (.of (a :: s)) = p) :
    streamMap read (n + 1) (m, last, u) (.of (a :: s)) =
      match p.1 with
      | none => streamFailed p.2
      | some str =>
        streamMap read n (OrderedMap.insert m str (read p.2).1, str,
          u || (decide (str ≤ last) && !m.isEmpty) || (read p.2).1.isUnordered) (read p.2).2 := by
  subst hp
  exact if_neg fun h ↦ ha (some.inj h)

theorem streamMap_of (hf : Follows read text) (hm : text.Moves) (n : ℕ)
    (b : List (Bytes × Object) × Bytes × Bool) (s : Bytes) (hn : s.length < n) :
    Mirrors (loop (ch 'e') (streamRules.mapStep text) n b s) (fun b ↦ .map (Object.mark b.2.2) b.1)
      (streamMap read (n + 1) b (.of s)) := by
  induction n generalizing b s with
  | zero => exact absurd hn (not_lt_zero _)
  | succ n ih =>
    obtain ⟨m, last, u⟩ := b
    cases s with
    | nil => exact rfl
    | cons a s =>
      by_cases ha : a = ch 'e'
      · subst ha
        rw [loop, if_pos rfl]
        exact rfl
      obtain ⟨hyes, hno⟩ := objectReadString_of (a :: s)
      rw [loop, if_neg ha, mapStep]
      cases hstr : streamRules.str (a :: s) with
      | none =>
        rw [streamMap_key ha _ rfl, hno hstr]
        exact rfl
      | some p =>
        obtain ⟨str, t⟩ := p
        have hlt := takes_streamRules.str_moves _ _ _ hstr
        rw [streamMap_key ha _ (hyes str t hstr)]
        simp only [Option.bind_eq_bind, bind_some]
        have hread := hf.mirrors t
        cases htext : text t with
        | none =>
          rw [htext] at hread
          exact streamMap_bad _ _ (good_eq_false hread)
        | some q =>
          have hlt' := hm _ _ _ htext
          rw [htext] at hread
          rw [show read _ = _ from hread]
          exact ih _ _ (Nat.lt_of_lt_of_le (hlt'.trans hlt) (Nat.lt_succ_iff.mp hn))

end Loops

theorem streamItem_integer {inner : Option StreamReader} {s : Bytes} (p : Option Int64 × IStream)
    (hp : (of s).extract toInt64 = p) : streamItem inner (.of (ch 'i' :: s)) =
      match p.1 with
      | none => streamFailed p.2.get.2
      | some v => if p.2.get.1 = some (ch 'e') then (.value 0 v, p.2.get.2) else streamFailed p.2.get.2 := by
  subst hp
  rfl

theorem streamItem_other {inner : Option StreamReader} {s : Bytes} {c : UInt8} (hi : c ≠ ch 'i') (hl : c ≠ ch 'l')
    (hd : c ≠ ch 'd') : streamItem inner (.of (c :: s)) =
      if isDigit c = true then
        match (objectReadString (.of (c :: s))).1 with
        | none => streamFailed (objectReadString (.of (c :: s))).2
        | some str => (.string 0 str, (objectReadString (.of (c :: s))).2)
      else streamFailed (.of (c :: s)) :=
  (if_neg hi).trans ((if_neg hl).trans (if_neg hd))

theorem follows_item {inner : Option StreamReader} {text : Option (Reader Object)}
    (h : ∀ read, inner = some read → ∃ t, text = some t ∧ t.Moves ∧ Follows read t)
    (h' : inner = none → text = none) : Follows (streamItem inner) (streamRules.readItem text) := by
  refine ⟨fun s ↦ ?_, fun input hbad ↦ ?_⟩
  · cases s with
    | nil => exact rfl
    | cons c s =>
      by_cases hi : c = ch 'i'
      · subst hi
        obtain ⟨hyes, hno⟩ := extract_get toInt64 (ch 'e') s
        rw [readItem_i, streamRules, markedRules]
        dsimp only
        cases hscan : scanned toInt64 (ch 'e') s with
        | none =>
          rw [streamItem_integer _ rfl]
          have hno := hno hscan
          generalize (of s).extract toInt64 = p at hno
          obtain ⟨v, input⟩ := p
          cases v with
          | none => exact rfl
          | some v =>
            dsimp only
            rw [if_neg (hno.resolve_left (by simp))]
            exact rfl
        | some q =>
          obtain ⟨input, hext, hget⟩ := hyes q.1 q.2 hscan
          rw [streamItem_integer _ hext, hget]
          exact if_pos rfl
      by_cases hl : c = ch 'l'
      · subst hl
        rw [readItem_l]
        cases inner with
        | none =>
          rw [h' rfl]
          exact rfl
        | some read =>
          obtain ⟨t, rfl, hm, hf⟩ := h read rfl
          exact (streamList_of hf hm (s.length + 1) ([], false) s (lt_succ_self _)).map
      by_cases hd : c = ch 'd'
      · subst hd
        rw [readItem_d]
        cases inner with
        | none =>
          rw [h' rfl]
          exact rfl
        | some read =>
          obtain ⟨t, rfl, hm, hf⟩ := h read rfl
          exact (streamMap_of hf hm (s.length + 1) ([], [], false) s (lt_succ_self _)).map
      rw [streamItem_other hi hl hd]
      by_cases hc : isDigit c = true
      · obtain ⟨hyes, hno⟩ := objectReadString_of (c :: s)
        rw [readItem_digit hc, if_pos hc]
        cases hstr : streamRules.str (c :: s) with
        | none =>
          rw [hno hstr]
          exact rfl
        | some p =>
          rw [hyes p.1 p.2 hstr]
          exact rfl
      · rw [readItem_other hi hl hd hc, if_neg hc]
        exact rfl
  · have hpeek : input.peek = (none, input.setFail) := by
      rw [peek, hbad]
      rfl
    rw [streamItem, hpeek]
    rfl

theorem follows_levels (n : ℕ) : Follows (streamLevels n) (streamRules.readLevels n) := by
  induction n with
  | zero => exact follows_item nofun fun _ ↦ rfl
  | succ n ih =>
    refine follows_item (fun read hread ↦ ?_) nofun
    cases hread
    exact ⟨_, rfl, takes_streamRules.moves.readLevels n, ih⟩

theorem objectReadBencode_eq (s : Bytes) (depth : ℕ) :
    objectReadBencode s depth = streamRules.readLevels (1023 - depth) s := by
  have hf := (follows_levels (1023 - depth)).mirrors s
  have hrun : objectReadBencode s depth = if (streamLevels (1023 - depth) (.of s)).2.failbit then none
      else some ((streamLevels (1023 - depth) (.of s)).1, (streamLevels (1023 - depth) (.of s)).2.rest) := rfl
  rw [hrun]
  cases hread : streamRules.readLevels (1023 - depth) s with
  | none =>
    rw [hread] at hf
    exact if_pos hf
  | some p =>
    rw [hread] at hf
    rw [show streamLevels _ _ = _ from hf]
    rfl

/-- The two readers take the same bytes of an input for the same object, or both refuse it,
exactly if every text of an object at its start has either all its numbers written as both
readers take them, or for each of the readers one that it does not take. -/
theorem objectReadBencode_eq_iff (s : Bytes) (hs : s.length < inputLimit) :
    objectReadBencode s 0 = objectReadBencodeCMarked s 0 ↔
      ∀ ts r o, LexemesOf s ts r → Spells 1023 ts o → ((∀ t ∈ ts, t.Buffered) ↔ ∀ t ∈ ts, t.Streamed) := by
  have hstream (o : Object) (r : Bytes) : objectReadBencode s 0 = some (o, r) ↔
      ∃ ts, TakenAs Lexeme.Streamed s ts r ∧ Spells 1023 ts o := by
    rw [objectReadBencode_eq]
    exact readLevels_iff takes_streamRules 1023 hs
  have hbuffer (o : Object) (r : Bytes) : objectReadBencodeCMarked s 0 = some (o, r) ↔
      ∃ ts, TakenAs Lexeme.Buffered s ts r ∧ Spells 1023 ts o :=
    readLevels_iff takes_bufferRules 1023 hs
  constructor
  · intro heq ts r o hts hspell
    -- the tokens between two places are determined, so the other reader has taken the same
    have hboth {P Q : Lexeme → Prop} (hread : (∃ us, TakenAs P s us r ∧ Spells 1023 us o) →
        ∃ us, TakenAs Q s us r ∧ Spells 1023 us o) (hP : ∀ t ∈ ts, P t) : ∀ t ∈ ts, Q t := by
      obtain ⟨us, hus, -⟩ := hread ⟨ts, cuts_and.mpr ⟨hts, hP⟩, hspell⟩
      obtain ⟨hlex, hQ⟩ := cuts_and.mp hus
      rwa [hlex.unique Lexeme.text_ne_nil (fun _ _ _ _ ↦ Lexeme.text_append_inj) hts] at hQ
    have hiff := (hbuffer o r).symm.trans (heq ▸ hstream o r)
    exact ⟨hboth hiff.mp, hboth hiff.mpr⟩
  · intro hcond
    apply Option.ext
    intro p
    obtain ⟨o, r⟩ := p
    rw [hstream, hbuffer]
    refine exists_congr fun ts ↦ and_congr_left fun hspell ↦ ?_
    rw [TakenAs, TakenAs, cuts_and, cuts_and]
    exact and_congr_right fun hlex ↦ (hcond ts r o hlex hspell).symm

theorem objectReadBencode_eq_negative :
    objectReadBencode (ascii "li-5ee") 0 = objectReadBencodeCMarked (ascii "li-5ee") 0 := by
  refine (objectReadBencode_eq_iff (ascii "li-5ee") (by decide)).mpr fun ts r o hts _ ↦ ?_
  have hwf : Numeral.WellFormed ⟨[], some true, [ch '5']⟩ := ⟨nofun, by simp [Digits]; decide⟩
  have hall : LexemesOf (ascii "li-5ee") [.list, .integer ⟨[], some true, [ch '5']⟩, .close] [] :=
    ⟨by simp [Lexeme.WellFormed, hwf], rfl⟩
  have hmem := (hts.prefix_of_all Lexeme.text_ne_nil (fun _ _ _ _ ↦ Lexeme.text_append_inj) hall).subset
  refine iff_of_true (fun t ht ↦ ?_) fun t ht ↦ ?_
  · refine (?_ : ∀ t ∈ _, t.Buffered) t (hmem ht)
    simp [Lexeme.Buffered]
    decide
  · refine (?_ : ∀ t ∈ _, t.Streamed) t (hmem ht)
    simp [Lexeme.Streamed, Numeral.denoted]
    decide

/-- An integer without digits is taken from a buffer only, one with a blank before it from a
stream only. -/
theorem objectReadBencode_ne : objectReadBencode (ascii "ie") 0 = none ∧
      objectReadBencodeCMarked (ascii "ie") 0 = some (.value 0 0, []) ∧
      objectReadBencode (ascii "i 5e") 0 = some (.value 0 5, []) ∧
      objectReadBencodeCMarked (ascii "i 5e") 0 = none :=
  ⟨rfl, rfl, rfl, rfl⟩

end LibTorrent
