import LibTorrent.Object.Raw

namespace LibTorrent

open Function Lib.Cursor Lib.Decimal

/-- `static_map_mapping_type`, its key up to the terminating zero. -/
structure Mapping where
  index : ℕ
  key : Bytes
  deriving DecidableEq

/-- `key[i]`, where the array is filled up with zeros. -/
def Mapping.char (m : Mapping) (i : ℕ) : UInt8 := m.key.getD i 0

def maxKeySize : ℕ := 16

abbrev Entries := ℕ → Object

/-- `utils::count_base`, the number of leading characters two ranges share. -/
def countBase : Bytes → Bytes → ℕ
  | a :: s, b :: t => if a = b then countBase s t + 1 else 0
  | _, _ => 0

/-- The test of `find_key_match` for the end of a key or of a part of it. -/
def Mapping.endsAt (m : Mapping) (base : ℕ) : Bool :=
  m.char base = 0 ∨ m.char base = ch '*' ∨ (m.char base = ch ':' ∧ m.char (base + 1) = ch ':') ∨
    (m.char base = ch '[' ∧ m.char (base + 1) = ch ']')

/-- `find_key_match`: the table from the match on, and the length of the match. A length
of zero says that there is none. -/
def findKeyMatch : List Mapping → Bytes → List Mapping × ℕ
  | [], _ => ([], 0)
  | m :: keys, key =>
    if countBase key m.key ≠ key.length then findKeyMatch keys key
    else if m.endsAt key.length then (m :: keys, key.length)
    else ([], 0)

/-- The variables of `static_map_read_bencode_c`: `first_key` as the table from there on,
the `next_key` of each open dictionary, and the start of `current_key`. -/
structure MapReader where
  entries : Entries
  keys : List Mapping
  stack : List ℕ
  current : Bytes

/-- The body of the list loops. The last component says that the remaining elements are
skipped, since there is no further entry for this list. -/
def staticMapListStep (second : ℕ) (type : UInt8) : Step UInt8 (Entries × List Mapping × Bool)
  | (entries, keys, true), s => (objectReadBencodeSkipC s).map fun r ↦ ((entries, keys, true), r)
  | (_, [], false), _ => none
  | (entries, m :: keys, false), s =>
    (if m.char (second + 2) = ch '*' then objectReadBencodeRawC s (entries m.index) type
      else (objectReadBencodeC s 0).map fun p ↦ (p.1.1, p.2)).map fun p ↦
        ((update entries m.index p.1, keys, decide (keys.head?.map Mapping.key ≠ some m.key)), p.2)

def staticMapSwitch (st : MapReader) (m : Mapping) (keys : List Mapping) (second : ℕ) (s : Bytes) :
    Option (MapReader × Bytes) :=
  if m.char second = 0 then
    (objectReadBencodeC s 0).map fun p ↦
      ({ st with entries := update st.entries m.index p.1.1, keys := keys }, p.2)
  else if m.char second = ch '*' then
    (objectReadBencodeRawC s (st.entries m.index) (m.char (second + 1))).map fun p ↦
      ({ st with entries := update st.entries m.index p.1, keys := keys }, p.2)
  else if m.char second = ch ':' then
    match s with
    | [] => none
    | c :: t =>
      if c ≠ ch 'd' then (objectReadBencodeSkipC s).map fun r ↦ (st, r)
      else some ({ st with
        stack := (second + 2) :: st.stack
        current := st.current.take second ++ [ch ':', ch ':'] }, t)
  else if m.char second = ch '[' then
    match s with
    | [] => none
    | c :: t =>
      if c ≠ ch 'l' then (objectReadBencodeSkipC s).map fun r ↦ (st, r)
      else (readUntil (ch 'e') (staticMapListStep second (m.char (second + 1)))
        (st.entries, m :: keys, false) t).map fun p ↦ ({ st with entries := p.1.1, keys := p.1.2.1 }, p.2)
  else none

/-- The rest of a turn after the key was read. A key too long for the table or not in it
has its value skipped. -/
def staticMapValue (st : MapReader) (rawKey s : Bytes) : Option (MapReader × Bytes) :=
  let nextKey := st.stack.headD 0
  if maxKeySize - nextKey ≤ rawKey.length then (objectReadBencodeSkipC s).map fun r ↦ (st, r)
  else
    let st := { st with current := (st.current.take nextKey ++ rawKey).takeWhile (· ≠ 0) }
    match findKeyMatch st.keys st.current with
    | (m :: keys, second + 1) => staticMapSwitch st m keys (second + 1) s
    | _ => (objectReadBencodeSkipC s).map fun r ↦ (st, r)

def staticMapLoop : ℕ → MapReader → Bytes → Option (Entries × Bytes)
  | 0, _, _ => none
  | _ + 1, _, [] => none
  | n + 1, st, c :: s =>
    if c = ch 'e' then
      match st.stack with
      | _ :: top :: stack => staticMapLoop n { st with stack := top :: stack } s
      | _ => some (st.entries, s)
    else do
      let (rawKey, s) ← objectReadBencodeCString (c :: s)
      let (st, s) ← staticMapValue st rawKey s
      staticMapLoop n st s

def staticMapReadBencodeC (s : Bytes) (entries : Entries) (keys : List Mapping) :
    Option (Entries × Bytes) :=
  match s with
  | [] => none
  | c :: s => if c ≠ ch 'd' then none else staticMapLoop (s.length + 1) ⟨entries, keys, [0], []⟩ s

open List Option

variable {s r : Bytes} {o : Object} {depth i second : ℕ} {u : Bool} {entries : Entries} {type : UInt8}
  {b' b : Entries × List Mapping × Bool} {st st' : MapReader} {keys : List Mapping}

theorem objectReadBencodeSkipC_suffix (h : objectReadBencodeSkipC s = some r) : r <:+ s := by
  rw [objectReadBencodeSkipC_eq] at h
  obtain ⟨⟨lax, r'⟩, hs, rfl⟩ := map_eq_some_iff.mp h
  exact scanLevels_suffixes 127 s lax r' hs

theorem objectReadBencodeSkipC_moves (h : objectReadBencodeSkipC s = some r) : r.length < s.length := by
  rw [objectReadBencodeSkipC_eq] at h
  obtain ⟨⟨lax, r'⟩, hs, rfl⟩ := map_eq_some_iff.mp h
  exact scanLevels_moves 127 s lax r' hs

theorem objectReadBencodeC_suffix (h : objectReadBencodeC s depth = some ((o, u), r)) : r <:+ s := by
  obtain ⟨ts, hts⟩ := reading_of_objectReadLevels h
  rw [hts.lexes.2]
  exact suffix_append _ r

theorem objectReadBencodeC_ne_raw (h : objectReadBencodeC s depth = some ((o, u), r)) (f : UInt32) (raw : Bytes) :
    o ≠ .rawBencode f raw := by
  have hitem : ∃ inner, cRules.readItem inner s = some ((o, u), r) := by
    rw [objectReadBencodeC] at h
    cases hn : 1023 - depth with
    | zero => exact ⟨none, by rw [hn] at h; exact h⟩
    | succ n => exact ⟨some (cRules.readLevels n), by rw [hn] at h; exact h⟩
  obtain ⟨inner, hi⟩ := hitem
  rcases objectReadItem_cases hi with ⟨_, _, _, _, _, rfl, _⟩ | ⟨_, _, _, _, _, _, rfl⟩ |
    ⟨_, _, _, _, _, _, _, rfl⟩ | ⟨_, _, _, _, _, _, rfl, _⟩ <;> simp

/-- Between the entries before and after reading `s`, every new `raw_bencode` is the raw
object of a text that was skipped. -/
def StoresRaw (s : Bytes) (entries entries' : Entries) : Prop :=
  ∀ i f raw, entries' i = .rawBencode f raw → entries i = .rawBencode f raw ∨
    ∃ t text r, t <:+ s ∧ t = text ++ r ∧ objectReadBencodeSkipC t = some r ∧ raw = rawBencode text

namespace StoresRaw

theorem refl (s : Bytes) (entries : Entries) : StoresRaw s entries entries := fun _ _ _ h ↦ .inl h

variable {e₁ e₂ : Entries} {t : Bytes}

theorem trans {e₃ : Entries} (h : StoresRaw s e₁ e₂) (hts : t <:+ s)
    (h' : StoresRaw t e₂ e₃) : StoresRaw s e₁ e₃ := by
  intro i f raw hi
  rcases h' i f raw hi with hi | ⟨u, text, r, hu, hrest⟩
  · exact h i f raw hi
  · exact .inr ⟨u, text, r, hu.trans hts, hrest⟩

theorem mono (h : StoresRaw t e₁ e₂) (hts : t <:+ s) : StoresRaw s e₁ e₂ := (refl s e₁).trans hts h

theorem update (h : ∀ f raw, o = .rawBencode f raw → entries i = .rawBencode f raw ∨
      ∃ t text r, t <:+ s ∧ t = text ++ r ∧ objectReadBencodeSkipC t = some r ∧ raw = rawBencode text) :
    StoresRaw s entries (update entries i o) := by
  intro j f raw hj
  by_cases hji : j = i
  · subst hji
    rw [update_self] at hj
    exact h f raw hj
  · rw [update_of_ne hji] at hj
    exact .inl hj

theorem read (h : objectReadBencodeC s depth = some ((o, u), r)) (i : ℕ) :
    StoresRaw s entries (Function.update entries i o) :=
  update fun f raw ho ↦ absurd ho (objectReadBencodeC_ne_raw h f raw)

end StoresRaw

/-- A raw read ends where skipping does, and what it stores as `raw_bencode` is new only
as the raw object of the text in between. -/
theorem objectReadBencodeRawC_eq_some {old : Object} (h : objectReadBencodeRawC s old type = some (o, r)) :
    objectReadBencodeSkipC s = some r ∧ ∀ f raw, o = .rawBencode f raw →
      old = .rawBencode f raw ∨ raw = rawBencode (s.take (s.length - r.length)) := by
  rw [objectReadBencodeRawC, Option.bind_eq_bind, bind_eq_some_iff] at h
  obtain ⟨r', hr, h⟩ := h
  simp only at h
  split_ifs at h <;> first
    | (obtain ⟨str, -, heq⟩ := map_eq_some_iff.mp h
       cases heq
       exact ⟨hr, by simp⟩)
    | (cases h
       refine ⟨hr, fun f raw ho ↦ ?_⟩
       simp_all)

theorem StoresRaw.raw (h : objectReadBencodeRawC s (entries i) type = some (o, r)) :
    StoresRaw s entries (Function.update entries i o) ∧ r <:+ s := by
  obtain ⟨hskip, hraw⟩ := objectReadBencodeRawC_eq_some h
  have hsuf := objectReadBencodeSkipC_suffix hskip
  refine ⟨StoresRaw.update fun f raw ho ↦ ?_, hsuf⟩
  refine (hraw f raw ho).imp_right fun h ↦ ⟨s, _, r, suffix_refl s, ?_, hskip, h⟩
  obtain ⟨text, rfl⟩ := hsuf
  simp

theorem staticMapListStep_cases {e e' : Entries} {k k' : List Mapping} {b b' : Bool}
    (h : staticMapListStep second type (e, k, b) s = some ((e', k', b'), r)) :
    (b = true ∧ e' = e ∧ k' = k ∧ b' = true ∧ objectReadBencodeSkipC s = some r) ∨
    (∃ m o, b = false ∧ k = m :: k' ∧ e' = update e m.index o ∧
      b' = decide (k'.head?.map Mapping.key ≠ some m.key) ∧
      (if m.char (second + 2) = ch '*' then objectReadBencodeRawC s (e m.index) type = some (o, r)
        else ∃ u, objectReadBencodeC s 0 = some ((o, u), r))) := by
  cases b with
  | true =>
    simp only [staticMapListStep, map_eq_some_iff, Prod.mk.injEq] at h
    obtain ⟨r', hr, ⟨rfl, rfl, rfl⟩, rfl⟩ := h
    exact .inl ⟨rfl, rfl, rfl, rfl, hr⟩
  | false =>
    cases k with
    | nil => simp [staticMapListStep] at h
    | cons m k =>
      simp only [staticMapListStep, map_eq_some_iff, Prod.mk.injEq, Prod.exists] at h
      obtain ⟨o, r', hr, ⟨rfl, rfl, rfl⟩, rfl⟩ := h
      refine .inr ⟨m, o, rfl, rfl, rfl, rfl, ?_⟩
      split_ifs at hr ⊢ with hstar
      · exact hr
      simp only [map_eq_some_iff, Prod.mk.injEq, Prod.exists] at hr
      obtain ⟨o', u, r'', hr, rfl, rfl⟩ := hr
      exact ⟨u, hr⟩

theorem staticMapListStep_stores (h : staticMapListStep second type b s = some (b', r)) :
    StoresRaw s b.1 b'.1 ∧ r <:+ s ∧ r.length < s.length := by
  obtain ⟨e', k', b'⟩ := b'
  rcases staticMapListStep_cases h with ⟨-, rfl, -, -, hr⟩ | ⟨m, o, -, -, rfl, -, hr⟩
  · exact ⟨StoresRaw.refl s _, objectReadBencodeSkipC_suffix hr, objectReadBencodeSkipC_moves hr⟩
  split_ifs at hr
  · obtain ⟨hstore, hsuf⟩ := StoresRaw.raw hr
    exact ⟨hstore, hsuf, objectReadBencodeSkipC_moves (objectReadBencodeRawC_eq_some hr).1⟩
  · obtain ⟨u, hr⟩ := hr
    exact ⟨StoresRaw.read hr _, objectReadBencodeC_suffix hr, cRules_moves.readLevels _ _ _ _ hr⟩

theorem staticMapList_stores (h : readUntil (ch 'e') (staticMapListStep second type) b s = some (b', r)) :
    StoresRaw s b.1 b'.1 ∧ r <:+ s := by
  refine readUntil_induction (fun _ _ _ _ h ↦ (staticMapListStep_stores h).2.2)
    (motive := fun b s b' r ↦ StoresRaw s b.1 b'.1 ∧ r <:+ s) ?_ ?_ h
  · exact fun b s ↦ ⟨StoresRaw.refl _ _, suffix_cons _ s⟩
  intro b a s b₁ s₁ b₂ s₂ _ h₁ _ ih
  obtain ⟨hstore, hsuf, -⟩ := staticMapListStep_stores h₁
  exact ⟨hstore.trans hsuf ih.1, ih.2.trans hsuf⟩

theorem staticMapSkip_stores (h : ((objectReadBencodeSkipC s).map fun r ↦ (st, r)) = some (st', r)) :
    StoresRaw s st.entries st'.entries ∧ r <:+ s := by
  obtain ⟨r', hr, heq⟩ := map_eq_some_iff.mp h
  cases heq
  exact ⟨StoresRaw.refl _ _, objectReadBencodeSkipC_suffix hr⟩

theorem staticMapSwitch_stores {m : Mapping} (h : staticMapSwitch st m keys second s = some (st', r)) :
    StoresRaw s st.entries st'.entries ∧ r <:+ s := by
  simp only [staticMapSwitch] at h
  split_ifs at h with h0 hstar hcolon hlist
  · obtain ⟨⟨⟨o, u⟩, r'⟩, hr, heq⟩ := map_eq_some_iff.mp h
    cases heq
    exact ⟨StoresRaw.read hr _, objectReadBencodeC_suffix hr⟩
  · obtain ⟨⟨o, r'⟩, hr, heq⟩ := map_eq_some_iff.mp h
    cases heq
    exact StoresRaw.raw hr
  · cases s with
    | nil => simp at h
    | cons c t =>
      simp only at h
      split_ifs at h
      · exact staticMapSkip_stores h
      · obtain ⟨rfl, rfl⟩ := Prod.mk.inj (some.inj h)
        exact ⟨StoresRaw.refl _ _, suffix_cons c t⟩
  · cases s with
    | nil => simp at h
    | cons c t =>
      simp only at h
      split_ifs at h
      · exact staticMapSkip_stores h
      obtain ⟨p, hp, heq⟩ := map_eq_some_iff.mp h
      cases heq
      obtain ⟨hstore, hsuf⟩ := staticMapList_stores hp
      exact ⟨hstore.mono (suffix_cons c t), hsuf.trans (suffix_cons c t)⟩

theorem staticMapValue_stores {rawKey : Bytes} (h : staticMapValue st rawKey s = some (st', r)) :
    StoresRaw s st.entries st'.entries ∧ r <:+ s := by
  simp only [staticMapValue] at h
  split_ifs at h
  · exact staticMapSkip_stores h
  split at h
  · have hst := staticMapSwitch_stores h
    exact hst
  · have hst := staticMapSkip_stores h
    exact hst

theorem staticMapLoop_stores {n : ℕ}
    (h : staticMapLoop n st s = some (entries, r)) : StoresRaw s st.entries entries := by
  induction n generalizing st s with
  | zero => simp [staticMapLoop] at h
  | succ n ih =>
    cases s with
    | nil => simp [staticMapLoop] at h
    | cons c s =>
      rw [staticMapLoop] at h
      split_ifs at h with he
      · split at h
        · exact (ih h).mono (suffix_cons c s)
        · cases h
          exact StoresRaw.refl _ _
      simp only [Option.bind_eq_bind, bind_eq_some_iff, Prod.exists] at h
      obtain ⟨key, t, hkey, st', t', hval, hloop⟩ := h
      obtain ⟨hstore, hsuf⟩ := staticMapValue_stores hval
      have hkeysuf := objectReadBencodeCString_suffix hkey
      exact (hstore.mono hkeysuf).trans (hsuf.trans hkeysuf) (ih hloop)

theorem staticMapReadBencodeC_stores {entries' : Entries}
    (h : staticMapReadBencodeC s entries keys = some (entries', r)) : StoresRaw s entries entries' := by
  cases s with
  | nil => simp [staticMapReadBencodeC] at h
  | cons c s =>
    rw [staticMapReadBencodeC] at h
    split_ifs at h
    exact (staticMapLoop_stores h).mono (suffix_cons c s)

/-- Skipping agrees with reading exactly where it takes no lax item. What a static map
stores raw can be decoded exactly where there is none in it and it is shorter than `2 ^ 32`. -/
theorem objectReadBencodeSkipC_agrees_iff (s : Bytes) : (SkipAgrees s ↔ ¬ SkipsLax s) ∧
    ∀ entries keys entries' r, staticMapReadBencodeC s entries keys = some (entries', r) →
      ∀ i f raw, entries' i = .rawBencode f raw → entries i = .rawBencode f raw ∨
        ∃ t text r', t <:+ s ∧ t = text ++ r' ∧ objectReadBencodeSkipC t = some r' ∧ raw = rawBencode text ∧
          ((∃ o, objectCreateNormal raw = some o) ↔ ¬ SkipsLax t ∧ text.length < 2 ^ 32) := by
  refine ⟨skipAgrees_iff s, fun entries keys entries' r h i f raw hi ↦ ?_⟩
  refine (staticMapReadBencodeC_stores h i f raw hi).imp_right ?_
  intro ⟨t, text, r', hsuf, ht, hskip, hraw⟩
  refine ⟨t, text, r', hsuf, ht, hskip, hraw, ?_⟩
  rw [hraw]
  exact objectCreateNormal_rawBencode_iff ht hskip

theorem objectReadBencodeSkipC_agrees_value : Object.none 0 = .rawBencode 0 [ch 'i', ch '5', ch 'e'] ∨
      ∃ t text r', t <:+ [ch 'd', ch '1', ch ':', ch 'v', ch 'i', ch '5', ch 'e', ch 'e'] ∧ t = text ++ r' ∧
        objectReadBencodeSkipC t = some r' ∧ [ch 'i', ch '5', ch 'e'] = rawBencode text ∧
        ((∃ o, objectCreateNormal [ch 'i', ch '5', ch 'e'] = some o) ↔ ¬ SkipsLax t ∧ text.length < 2 ^ 32) :=
  (objectReadBencodeSkipC_agrees_iff _).2 (fun _ ↦ .none 0) [⟨0, [ch 'v', ch '*']⟩] _ [] rfl 0 0 _ rfl

/-- The bytes `i-e` are skipped but not read, also as the value of a raw entry. -/
theorem objectReadBencodeSkipC_lax : objectReadBencodeSkipC [ch 'i', ch '-', ch 'e'] = some [] ∧
      objectReadBencodeC [ch 'i', ch '-', ch 'e'] 0 = none ∧
      (∃ entries, staticMapReadBencodeC
        [ch 'd', ch '1', ch ':', ch 'v', ch 'i', ch '-', ch 'e', ch 'e'] (fun _ ↦ .none 0)
        [⟨0, [ch 'v', ch '*']⟩] = some (entries, []) ∧
        entries 0 = .rawBencode 0 [ch 'i', ch '-', ch 'e']) ∧
      objectCreateNormal [ch 'i', ch '-', ch 'e'] = none := by
  refine ⟨rfl, rfl, ⟨_, rfl, rfl⟩, rfl⟩

open List Option

variable {s r u text body ds : Bytes} {c type : UInt8}

/-- Whether a value that starts with `c` is of the kind that a type letter stands for. -/
def opens (type c : UInt8) : Bool :=
  if type = ch 'S' then isDigit c else c = if type = ch 'L' then ch 'l' else ch 'd'

/-- What the delimiters of a value of that kind enclose: the text behind the colon of a
string, the text between the first and the last byte of a list or dictionary. -/
def contents (type : UInt8) : Bytes → Option Bytes
  | [] => none
  | c :: u =>
    if opens type c then some (if type = ch 'S' then (u.dropWhile (· ≠ ch ':')).tail else u.dropLast) else none

def typed (type : UInt8) : Bytes → Object :=
  if type = ch 'S' then .rawString 0 else if type = ch 'L' then .rawList 0 else .rawMap 0

/-- The test of the first byte in `is_raw_string`, `is_raw_list` and `is_raw_map`. -/
def isKind (type c : UInt8) : Bool :=
  if type = ch 'S' then ch '0' ≤ c && c ≤ ch '9' else (if type = ch 'L' then ch 'l' else ch 'd') ≤ c && c < 128

def isRaw (type : UInt8) (raw : Bytes) : Bool := 2 ≤ raw.length && raw.head?.any (isKind type)

def asRaw (type : UInt8) (raw : Bytes) : Option Bytes :=
  if type = ch 'S' then asRawString raw else some (asRawInner raw)

/-- What skipping takes after a first byte `c`. -/
def Skipped (c : UInt8) (u : Bytes) : Prop :=
  (c = ch 'i' ∨ c = ch 'l' ∨ c = ch 'd') ∧ 0 < u.length ∨ c = ch ':' ∨ isDigit c = true ∧ ch ':' ∈ u

theorem skipped_of_skip (h : objectReadBencodeSkipC (text ++ r) = some r) : ∃ c u, text = c :: u ∧ Skipped c u := by
  rw [objectReadBencodeSkipC_eq] at h
  obtain ⟨⟨lax, r⟩, hs, rfl⟩ := map_eq_some_iff.mp h
  cases text with
  | nil => exact absurd (scanLevels_moves 127 _ _ _ hs) (lt_irrefl _)
  | cons c u =>
    refine ⟨c, u, rfl, ?_⟩
    rw [cons_append, scanLevels, scanItem] at hs
    split_ifs at hs with hi hl
    · obtain ⟨r', hr, heq⟩ := map_eq_some_iff.mp hs
      obtain ⟨-, rfl⟩ := Prod.mk.inj heq
      exact .inl ⟨.inl hi, by simpa using skipInteger_moves hr⟩
    · obtain ⟨scan, hscan, hloop⟩ := bind_eq_some_iff.mp hs
      cases hscan
      exact .inl ⟨.inr hl, by simpa using readUntil_consumes (consumes_scanStep (scanLevels_moves 126) _) _ _ _ _ hloop⟩
    obtain ⟨⟨str, r'⟩, hr, heq⟩ := map_eq_some_iff.mp hs
    cases heq
    obtain ⟨ds, hds, hs, -, -⟩ := objectReadBencodeCString_eq_some.mp hr
    cases ds with
    | nil => exact .inr (.inl (cons.inj hs).1)
    | cons d ds =>
      obtain ⟨rfl, hs⟩ := cons.inj hs
      obtain rfl : u = ds ++ ch ':' :: str := append_cancel_right (by simpa using hs)
      exact .inr (.inr ⟨hds c mem_cons_self, by simp⟩)

theorem length_rawBencode (s : Bytes) : (rawBencode s).length = s.length % 2 ^ 32 := by
  rw [rawBencode, length_take, min_eq_left (Nat.mod_le _ _)]

theorem asRawString_append (h : asRawString s = some body) (t : Bytes) :
    asRawString (s ++ t) = some (body ++ t) := by
  rw [asRawString] at h ⊢
  split at h
  · cases h
  rename_i c l hd
  rw [dropWhile_append, hd, ← some.inj h]
  rfl

/-- A text that `raw_bencode` cuts does not keep its contents. -/
theorem length_lt_of_asRaw (h2 : 2 ≤ s.length % 2 ^ 32) (hraw : asRaw type (rawBencode s) = some body)
    (hs : asRaw type s = some body) : s.length < 2 ^ 32 := by
  rw [asRaw] at hraw hs
  split_ifs at hraw hs
  · have happend := asRawString_append hraw (s.drop (s.length % 2 ^ 32))
    rw [rawBencode, take_append_drop, hs, some.injEq, self_eq_append_right, drop_eq_nil_iff] at happend
    omega
  have := congrArg List.length ((some.inj hraw).trans (some.inj hs).symm)
  simp only [asRawInner, length_take, length_drop, length_rawBencode] at this
  omega

section

variable (h : Skipped c u)
include h

theorem Skipped.asRaw_eq (hopen : opens type c = true) :
    2 ≤ (c :: u).length ∧ ∃ body, asRaw type (c :: u) = some body ∧ contents type (c :: u) = some body := by
  rw [contents, if_pos hopen, asRaw]
  rw [opens] at hopen
  split_ifs at hopen ⊢
  · obtain ⟨rfl | rfl | rfl, -⟩ | rfl | ⟨-, hmem⟩ := h
    iterate 4 cases hopen
    obtain ⟨pre, body, rfl, hpre⟩ := eq_append_cons_of_mem hmem
    have hdrop (l : Bytes) (hl : ch ':' ∉ l) : (l ++ ch ':' :: body).dropWhile (· ≠ ch ':') = ch ':' :: body := by
      have hne : ∀ d ∈ l, decide (d ≠ ch ':') = true := fun d hd ↦ decide_eq_true fun h ↦ hl (h ▸ hd)
      rw [dropWhile_append_of_pos hne]
      simp
    have hcons : ch ':' ∉ c :: pre := fun hmem ↦ (mem_cons.mp hmem).elim
      (fun hc ↦ absurd (hc ▸ hopen) (by decide)) hpre
    refine ⟨Nat.succ_le_succ (length_pos_of_mem hmem), body, ?_, by rw [hdrop pre hpre]; rfl⟩
    rw [asRawString, ← cons_append, hdrop _ hcons]
  all_goals
    rw [decide_eq_true_eq] at hopen
    subst hopen
    obtain ⟨-, hlen⟩ | hc | ⟨hc, -⟩ := h
    · exact ⟨Nat.succ_le_succ hlen, u.dropLast, by simp [asRawInner, dropLast_eq_take], rfl⟩
    · exact absurd hc (by decide)
    · cases hc

/-- The check of the kind, on the first bytes of the text that `raw_bencode` keeps. -/
theorem Skipped.isRaw_iff (htype : type ∈ [ch 'S', ch 'L', ch 'M']) :
    isRaw type (rawBencode (c :: u)) = true ↔ 2 ≤ (c :: u).length % 2 ^ 32 ∧
      (opens type c = true ∨ type = ch 'M' ∧ (c = ch 'i' ∨ c = ch 'l')) := by
  rw [isRaw, length_rawBencode, Bool.and_eq_true, decide_eq_true_eq, and_congr_right_iff]
  intro h2
  rw [rawBencode, head?_take, if_neg (by omega), head?_cons, any_some]
  simp only [mem_cons, not_mem_nil, or_false] at htype
  obtain ⟨hc, -⟩ | rfl | ⟨hc, -⟩ := h
  · obtain rfl | rfl | rfl := hc <;> obtain rfl | rfl | rfl := htype <;> decide
  · obtain rfl | rfl | rfl := htype <;> decide
  · obtain ⟨d, hd, rfl⟩ : ∃ d < 10, ofDigit d = c := ⟨_, digitVal_lt hc, ofDigit_digitVal hc⟩
    obtain rfl | rfl | rfl := htype <;> interval_cases d <;> decide

end

theorem objectReadBencodeRawC_typed (htype : type ∈ [ch 'S', ch 'L', ch 'M'])
    (hskip : objectReadBencodeSkipC (text ++ r) = some r) (old : Object) :
    objectReadBencodeRawC (text ++ r) old type = if isRaw type (rawBencode text) then
      (asRaw type (rawBencode text)).map fun x ↦ (typed type x, r) else some (old, r) := by
  have htake : (text ++ r).take ((text ++ r).length - r.length) = text := by
    rw [length_append, Nat.add_sub_cancel, take_left]
  simp only [objectReadBencodeRawC, hskip, Option.bind_eq_bind, bind_some, htake]
  simp only [mem_cons, not_mem_nil, or_false] at htype
  obtain rfl | rfl | rfl := htype <;> rfl

theorem typed_ne_none : typed type body ≠ .none 0 := by
  rw [typed]
  split_ifs <;> exact Object.noConfusion

theorem typed_inj {x : Bytes} (h : typed type x = typed type body) : x = body := by
  rw [typed] at h
  split_ifs at h <;> cases h <;> rfl

/-- The raw object holds the whole value, and no integer or list stands where a dictionary
is asked for. -/
def FitsRaw (type : UInt8) (text : Bytes) : Prop :=
  ∀ c ∈ text.head?, (opens type c = true → text.length < 2 ^ 32) ∧
    (type = ch 'M' → c = ch 'i' ∨ c = ch 'l' → text.length % 2 ^ 32 < 2)

end LibTorrent
