import LibTorrent.Object.Skip

namespace LibTorrent

open Lib Lib.Cursor Lib.Decimal List Option Rules

def rawBencode (text : Bytes) : Bytes := text.take (text.length % 2 ^ 32)

variable (raw : Bytes)

def isRawString : Bool := 2 ≤ raw.length && (raw.head?.any fun c ↦ ch '0' ≤ c && c ≤ ch '9')

def isRawList : Bool := 2 ≤ raw.length && (raw.head?.any fun c ↦ ch 'l' ≤ c && c < 128)

def isRawMap : Bool := 2 ≤ raw.length && (raw.head?.any fun c ↦ ch 'd' ≤ c && c < 128)

/-- `raw_bencode::as_raw_string`, with the internal error for a text without a colon. -/
def asRawString : Option Bytes :=
  match raw.dropWhile (· ≠ ch ':') with
  | [] => none
  | _ :: s => some s

/-- `raw_bencode::as_raw_list` and `as_raw_map`, the text inside the first and last byte. -/
def asRawInner : Bytes := (raw.drop 1).take (raw.length - 2)

/-- `object_read_bencode_raw_c`: the object that `old` is changed to, and the text after
it. An object of another kind than the type asks for leaves `old` as it is. -/
def objectReadBencodeRawC (s : Bytes) (old : Object) (type : UInt8) : Option (Object × Bytes) := do
  let r ← objectReadBencodeSkipC s
  let obj := rawBencode (s.take (s.length - r.length))
  if type = ch 'S' then
    if isRawString obj then (asRawString obj).map fun str ↦ (.rawString 0 str, r) else some (old, r)
  else if type = ch 'L' then
    if isRawList obj then some (.rawList 0 (asRawInner obj), r) else some (old, r)
  else if type = ch 'M' then
    if isRawMap obj then some (.rawMap 0 (asRawInner obj), r) else some (old, r)
  else some (.rawBencode 0 obj, r)

/-- `object_create_normal` of a `raw_bencode`. It starts 128 levels down, and all of the
text has to be used. -/
def objectCreateNormal : Option Object :=
  match objectReadBencodeC raw 128 with
  | some ((o, _), []) => some o
  | _ => none

variable {r s str : Bytes} {scan : Scanner} {inner : Option Scanner} {lax : Bool} {n : ℕ}

theorem objectReadBencodeCString_suffix (h : objectReadBencodeCString s = some (str, r)) : r <:+ s := by
  obtain ⟨ds, -, rfl, -, -⟩ := objectReadBencodeCString_eq_some.mp h
  exact ⟨ds ++ ch ':' :: str, by simp⟩

theorem skipInteger_suffix (h : skipInteger s = some r) : r <:+ s := by
  obtain ⟨neg, ds, -, -, rfl⟩ := skipInteger_eq_some.mp h
  exact ⟨sign neg ++ ds ++ [ch 'e'], by simp⟩

def Scanner.Suffixes (scan : Scanner) : Prop := ∀ s lax r, scan s = some (lax, r) → r <:+ s

theorem suffixes_scanStep (h : scan.Suffixes) (isMap : Bool) : Cursor.Suffixes (scanStep isMap scan) := by
  intro lax s lax' r hs
  obtain ⟨t, l, ht, hl, -⟩ := scanStep_eq_some.mp hs
  cases isMap with
  | false =>
    obtain rfl : t = s := ht
    exact h t l r hl
  | true =>
    obtain ⟨key, hkey⟩ := ht
    exact (h t l r hl).trans (objectReadBencodeCString_suffix hkey)

theorem scanItem_suffixes
    (hin : ∀ scan, inner = some scan → scan.Moves ∧ scan.Suffixes) : (scanItem inner).Suffixes := by
  intro s lax r h
  cases s with
  | nil => simp [scanItem] at h
  | cons c s =>
    rw [scanItem] at h
    split_ifs at h with hi hl
    · obtain ⟨r', hr, heq⟩ := map_eq_some_iff.mp h
      cases heq
      exact (skipInteger_suffix hr).trans (suffix_cons c s)
    · obtain ⟨scan, hscan, hloop⟩ := bind_eq_some_iff.mp h
      obtain ⟨hm, hsuf⟩ := hin scan hscan
      exact (readUntil_suffixes (consumes_scanStep hm _) (suffixes_scanStep hsuf _) _ _ _ _ hloop).trans
        (suffix_cons c s)
    obtain ⟨⟨str, r'⟩, hr, heq⟩ := map_eq_some_iff.mp h
    cases heq
    exact objectReadBencodeCString_suffix hr

theorem scanLevels_suffixes (n : ℕ) : (scanLevels n).Suffixes := by
  induction n with
  | zero => exact scanItem_suffixes (by simp)
  | succ n ih =>
    refine scanItem_suffixes fun scan hs ↦ ?_
    cases hs
    exact ⟨scanLevels_moves n, ih⟩

section Take

variable {x : Bytes}

theorem objectReadBencodeCString_take (hs : s.length < 2 ^ 32)
    (h : objectReadBencodeCString (s ++ x) = some (str, r ++ x)) :
    objectReadBencodeCString s = some (str, r) := by
  obtain ⟨ds, hds, heq, hlen, -⟩ := objectReadBencodeCString_eq_some.mp h
  have hs' : s = ds ++ ch ':' :: (str ++ r) := by
    have hx : s ++ x = (ds ++ ch ':' :: (str ++ r)) ++ x := by simpa using heq
    exact append_cancel_right hx
  refine objectReadBencodeCString_eq_some.mpr ⟨ds, hds, hs', hlen, ?_⟩
  have := congrArg List.length hs'
  simp only [length_append, length_cons] at this
  omega

theorem skipInteger_take (h : skipInteger (s ++ x) = some (r ++ x)) :
    skipInteger s = some r ∧ ((s ++ x).take 2 = [ch '-', ch 'e'] ↔ s.take 2 = [ch '-', ch 'e']) := by
  obtain ⟨neg, ds, hds, hn, heq⟩ := skipInteger_eq_some.mp h
  have hs' : s = sign neg ++ ds ++ ch 'e' :: r := by
    have hx : s ++ x = (sign neg ++ ds ++ ch 'e' :: r) ++ x := by simpa using heq
    exact append_cancel_right hx
  refine ⟨skipInteger_eq_some.mpr ⟨neg, ds, hds, hn, hs'⟩, ?_⟩
  have he : ch 'e' ≠ ch '-' := by decide
  subst hs'
  cases neg <;> cases ds with
  | nil => simp [sign, he]
  | cons d t => cases t <;> simp [sign]

theorem scanStep_take {isMap : Bool} (hsuf : scan.Suffixes)
    (hscan : ∀ s lax r, s.length < 2 ^ 32 → scan (s ++ x) = some (lax, r ++ x) → scan s = some (lax, r))
    (lax : Bool) (s : Bytes) (lax' : Bool) (r : Bytes) (hs : s.length < 2 ^ 32)
    (h : scanStep isMap scan lax (s ++ x) = some (lax', r ++ x)) :
    scanStep isMap scan lax s = some (lax', r) := by
  obtain ⟨t, l, ht, hl, hor⟩ := scanStep_eq_some.mp h
  cases isMap with
  | false =>
    obtain rfl : t = s ++ x := ht
    exact scanStep_eq_some.mpr ⟨s, l, rfl, hscan s l r hs hl, hor⟩
  | true =>
    obtain ⟨key, hkey⟩ := ht
    obtain ⟨c, hc⟩ := hsuf _ _ _ hl
    rw [← append_assoc] at hc
    subst hc
    have hkey' := objectReadBencodeCString_take hs hkey
    have hlt := objectReadBencodeCString_moves hkey'
    exact scanStep_eq_some.mpr ⟨c ++ r, l, ⟨key, hkey'⟩, hscan _ l r (by omega) hl, hor⟩

theorem scanItem_take
    (hin : ∀ scan, inner = some scan → scan.Moves ∧ scan.Suffixes ∧ ∀ s lax r, s.length < 2 ^ 32 →
      scan (s ++ x) = some (lax, r ++ x) → scan s = some (lax, r)) (hs : s.length < 2 ^ 32)
    (h : scanItem inner (s ++ x) = some (lax, r ++ x)) : scanItem inner s = some (lax, r) := by
  cases s with
  | nil =>
    have hm : (scanItem inner).Moves := scanItem_moves fun scan hscan ↦ (hin scan hscan).1
    have hlt := hm _ _ _ h
    simp only [nil_append, length_append] at hlt
    omega
  | cons c s =>
    rw [cons_append, scanItem] at h
    rw [scanItem]
    split_ifs at h ⊢ with hi hl
    · obtain ⟨r', hr, heq⟩ := map_eq_some_iff.mp h
      cases heq
      obtain ⟨hskip, hlax⟩ := skipInteger_take hr
      simp [hskip, hlax]
    · obtain ⟨scan, rfl, hloop⟩ := bind_eq_some_iff.mp h
      obtain ⟨hm, hsuf, htake⟩ := hin scan rfl
      have hlen : s.length < 2 ^ 32 := by
        rw [length_cons] at hs
        omega
      exact readUntil_take (consumes_scanStep hm _) (suffixes_scanStep hsuf _) (scanStep_take hsuf htake)
        hlen hloop
    · obtain ⟨⟨str, r'⟩, hr, heq⟩ := map_eq_some_iff.mp h
      cases heq
      rw [objectReadBencodeCString_take hs hr]
      rfl

theorem scanLevels_take (hs : s.length < 2 ^ 32)
    (h : scanLevels n (s ++ x) = some (lax, r ++ x)) : scanLevels n s = some (lax, r) := by
  induction n generalizing s lax r with
  | zero => exact scanItem_take (by simp) hs h
  | succ n ih =>
    refine scanItem_take (fun scan hscan ↦ ?_) hs h
    cases hscan
    exact ⟨scanLevels_moves n, scanLevels_suffixes n, fun s lax r hs h ↦ ih hs h⟩

end Take

section Lockstep

variable {y : Bytes} {q : Bytes} {o : Object} {u : Bool}

theorem objectReadBencodeCString_lockstep {str' : Bytes} (h : objectReadBencodeCString s = some (str, r))
    (h' : objectReadBencodeCString (s ++ y) = some (str', q)) : q = r ++ y := by
  obtain ⟨ds, hds, rfl, hlen, -⟩ := objectReadBencodeCString_eq_some.mp h
  obtain ⟨ds', hds', heq, hlen', -⟩ := objectReadBencodeCString_eq_some.mp h'
  have heq' : ds ++ ch ':' :: (str ++ (r ++ y)) = ds' ++ ch ':' :: (str' ++ q) := by simpa using heq
  obtain ⟨rfl, -, htail⟩ := digits_append_inj hds hds' rfl rfl heq'
  exact (append_inj htail (hlen.trans hlen'.symm)).2.symm

theorem scanItem_lockstep {inner : Option (Reader (Object × Bool))} {innerScan : Option Scanner}
    (hm : ∀ read, inner = some read → read.Moves) (hms : ∀ scan, innerScan = some scan → scan.Moves)
    (hin : ∀ read scan, inner = some read → innerScan = some scan → ∀ s o u r lax q,
      read s = some ((o, u), r) → scan (s ++ y) = some (lax, q) → q = r ++ y ∧ lax = false)
    (h : cRules.readItem inner s = some ((o, u), r))
    (h' : scanItem innerScan (s ++ y) = some (lax, q)) : q = r ++ y ∧ lax = false := by
  rcases objectReadItem_cases h with ⟨neg, ds, hds, hn, rfl, -⟩ | ⟨read, l, t, hr, rfl, hl, -⟩ |
    ⟨read, m, prev, t, hr, rfl, hl, -⟩ | ⟨c, t, str, rfl, hc, hstr, -⟩
  · have htext : (Token.integer neg ds).text ++ r ++ y =
        ch 'i' :: (sign neg ++ ds ++ ch 'e' :: (r ++ y)) := by simp [Token.text]
    obtain ⟨hskip, hlax⟩ := (integer_scan_iff _ _).mp ⟨neg, ds, hds, hn, rfl⟩
    rw [htext, scanItem, if_pos rfl, hskip, Option.map_some, some.injEq, Prod.mk.injEq] at h'
    exact ⟨h'.2.symm, by rw [← h'.1]; simpa using hlax⟩
  · obtain ⟨scan, hscan, hloop⟩ := bind_eq_some_iff.mp h'
    refine readUntil_lockstep (consumes_listStep (hm read hr)) (consumes_scanStep (hms scan hscan) _)
      ?_ hl hloop
    intro b s b' r c c' q hb hc
    obtain ⟨o, ho, -⟩ := listStep_eq_some.mp hb
    obtain ⟨t, l, ht, hl, hor⟩ := scanStep_eq_some.mp hc
    obtain rfl : t = s ++ y := ht
    obtain ⟨hq, rfl⟩ := hin read scan hr hscan _ _ _ _ _ _ ho hl
    exact ⟨hq, by simpa using hor⟩
  · obtain ⟨scan, hscan, hloop⟩ := bind_eq_some_iff.mp h'
    refine readUntil_lockstep (consumes_mapStep (hm read hr)) (consumes_scanStep (hms scan hscan) _)
      ?_ hl hloop
    intro b s b' r c c' q hb hc
    obtain ⟨key, t, o, hkey, ho, -⟩ := mapStep_eq_some.mp hb
    rw [cRules_str] at hkey
    obtain ⟨t', l, ⟨key', hkey'⟩, hl, hor⟩ := scanStep_eq_some.mp hc
    obtain rfl := objectReadBencodeCString_lockstep hkey hkey'
    obtain ⟨hq, rfl⟩ := hin read scan hr hscan _ _ _ _ _ _ ho hl
    exact ⟨hq, by simpa using hor⟩
  · have hne : ∀ e : UInt8, isDigit e = false → c ≠ e := by
      intro e he hce
      rw [← hce, hc] at he
      cases he
    have hld : ¬ (c = ch 'l' ∨ c = ch 'd') := fun h ↦ h.elim (hne _ rfl) (hne _ rfl)
    rw [cons_append, scanItem, if_neg (hne _ rfl), if_neg hld] at h'
    obtain ⟨⟨str', q'⟩, hq, heq⟩ := map_eq_some_iff.mp h'
    cases heq
    exact ⟨objectReadBencodeCString_lockstep hstr hq, by simp [hc]⟩

theorem scanLevels_lockstep {m : ℕ}
    (h : cRules.readLevels n s = some ((o, u), r)) (h' : scanLevels m (s ++ y) = some (lax, q)) :
    q = r ++ y ∧ lax = false := by
  induction n generalizing m s o u r lax q with
  | zero =>
    cases m with
    | zero => exact scanItem_lockstep (by simp) (by simp) (by simp) h h'
    | succ m =>
      refine scanItem_lockstep (by simp) ?_ (by simp) h h'
      intro scan hscan
      cases hscan
      exact scanLevels_moves m
  | succ n ih =>
    have hmoves : ∀ read, some (cRules.readLevels n) = some read → read.Moves := by
      intro read hr
      cases hr
      exact cRules_moves.readLevels n
    cases m with
    | zero => exact scanItem_lockstep hmoves (by simp) (by simp) h h'
    | succ m =>
      refine scanItem_lockstep hmoves ?_ ?_ h h'
      · intro scan hscan
        cases hscan
        exact scanLevels_moves m
      intro read scan hr hscan s o u r lax q h h'
      cases hr
      cases hscan
      exact ih h h'

end Lockstep

theorem objectCreateNormal_eq_some :
    (∃ o, objectCreateNormal raw = some o) ↔ ∃ p, cRules.readLevels 895 raw = some (p, []) := by
  rw [objectCreateNormal, objectReadBencodeC]
  constructor
  · intro ⟨o, h⟩
    split at h
    · rename_i heq
      exact ⟨_, heq⟩
    · cases h
  · intro ⟨⟨o, u⟩, h⟩
    exact ⟨o, by rw [h]⟩

/-- What skipping takes at `t` can be decoded from the raw object of it if and only if it
has no lax item and its size fits in 32 bits. -/
theorem objectCreateNormal_rawBencode_iff {t text : Bytes} (ht : t = text ++ r)
    (h : objectReadBencodeSkipC t = some r) :
    (∃ o, objectCreateNormal (rawBencode text) = some o) ↔ ¬ SkipsLax t ∧ text.length < 2 ^ 32 := by
  rw [objectCreateNormal_eq_some]
  constructor
  · intro ⟨⟨o, u⟩, hread⟩
    rw [objectReadBencodeSkipC_eq] at h
    obtain ⟨⟨lax, r'⟩, hscan, rfl⟩ := map_eq_some_iff.mp h
    have hsplit : t = rawBencode text ++ (text.drop (text.length % 2 ^ 32) ++ r') := by
      rw [rawBencode, ← append_assoc, take_append_drop, ht]
    rw [hsplit] at hscan
    obtain ⟨hr, rfl⟩ := scanLevels_lockstep hread hscan
    refine ⟨?_, ?_⟩
    · intro ⟨q, hq⟩
      rw [hsplit, hscan] at hq
      cases hq
    have hlen := congrArg List.length hr
    simp only [nil_append, length_append, length_drop] at hlen
    omega
  · intro ⟨hlax, hlen⟩
    have hscan := (agrees_levels 127 t r).mp (read_of_skip hlax h)
    have hnil : scanLevels 127 (text ++ r) = some (false, [] ++ r) := by rw [← ht]; exact hscan
    have htext := scanLevels_mono (show 127 ≤ 895 by norm_num) (scanLevels_take hlen hnil)
    rw [rawBencode, Nat.mod_eq_of_lt hlen, take_length]
    exact (agrees_levels 895 text []).mpr htext

end LibTorrent
