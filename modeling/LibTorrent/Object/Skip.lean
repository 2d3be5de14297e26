import LibTorrent.Object.Canonical

namespace LibTorrent

open Lib.Cursor Lib.Decimal List Option

def skipDigits (s : Bytes) : Option Bytes :=
  match s.dropWhile isDigit with
  | [] => none
  | e :: r => if e = ch 'e' then some r else none

def skipInteger : Bytes → Option Bytes
  | [] => none
  | c :: s =>
    if c = ch '-' then
      match s with
      | [] => none
      | d :: _ => if d = ch '0' then none else skipDigits s
    else skipDigits (c :: s)

/-- `if (stack_itr == stack) return first`, else the loop goes on. -/
def skipReturn (next : List Bool → Bytes → Option Bytes) (stack : List Bool) (s : Bytes) : Option Bytes :=
  if stack = [] then some s else next stack s

/-- The switch of `object_read_bencode_skip_c`. The stack holds the open containers above
its first element, those that are dictionaries as `true`. -/
def skipSwitch (next : List Bool → Bytes → Option Bytes) (stack : List Bool) : Bytes → Option Bytes
  | [] => none
  | c :: s =>
    if c = ch 'i' then (skipInteger s).bind (skipReturn next stack)
    else if c = ch 'l' ∨ c = ch 'd' then
      if stack.length + 1 = 128 then none else next ((c == ch 'd') :: stack) s
    else (objectReadBencodeCString (c :: s)).bind fun p ↦ skipReturn next stack p.2

def skipLoop : ℕ → List Bool → Bytes → Option Bytes
  | 0, _, _ => none
  | _ + 1, _, [] => none
  | n + 1, stack, c :: s =>
    if c = ch 'e' then
      match stack with
      | [] => none
      | _ :: stack => skipReturn (skipLoop n) stack s
    else if stack.head? = some true then
      (objectReadBencodeCString (c :: s)).bind fun p ↦ skipSwitch (skipLoop n) stack p.2
    else skipSwitch (skipLoop n) stack (c :: s)

def objectReadBencodeSkipC (s : Bytes) : Option Bytes := skipLoop (s.length + 1) [] s

/-- A recursive scanner of the texts that skipping takes. It returns whether some item was
one that the full reader does not take, and the text after the object. -/
abbrev Scanner := Bytes → Option (Bool × Bytes)

def scanStep (isMap : Bool) (scan : Scanner) : Step UInt8 Bool := fun lax s ↦
  (if isMap then (objectReadBencodeCString s).map Prod.snd else some s).bind fun s ↦
    (scan s).map fun p ↦ (lax || p.1, p.2)

/-- An integer is lax if it is `-` without digits, a string if it has no length. -/
def scanItem (inner : Option Scanner) : Scanner
  | [] => none
  | c :: s =>
    if c = ch 'i' then (skipInteger s).map fun r ↦ (decide (s.take 2 = [ch '-', ch 'e']), r)
    else if c = ch 'l' ∨ c = ch 'd' then
      inner.bind fun scan ↦ readUntil (ch 'e') (scanStep (c == ch 'd') scan) false s
    else (objectReadBencodeCString (c :: s)).map fun p ↦ (!isDigit c, p.2)

def scanLevels : ℕ → Scanner
  | 0 => scanItem none
  | n + 1 => scanItem (some (scanLevels n))

variable {s r : Bytes} {scan : Scanner}

theorem skipDigits_eq_some : skipDigits s = some r ↔ ∃ ds, Digits ds ∧ s = ds ++ ch 'e' :: r := by
  constructor
  · intro h
    have hs : s = s.takeWhile isDigit ++ s.dropWhile isDigit := takeWhile_append_dropWhile.symm
    rw [skipDigits] at h
    cases ht : s.dropWhile isDigit with
    | nil => simp [ht] at h
    | cons e t =>
      simp only [ht] at h
      split_ifs at h with he
      cases h
      exact ⟨s.takeWhile isDigit, fun c hc ↦ isDigit_of_mem_takeWhile hc, by rw [← he, ← ht]; exact hs⟩
  · intro h
    obtain ⟨ds, hds, rfl⟩ := h
    simp [skipDigits, (takeWhile_digits hds (show isDigit (ch 'e') = false from rfl) r).2]

theorem skipInteger_eq_some : skipInteger s = some r ↔
      ∃ neg ds, Digits ds ∧ (neg = true → ds.head? ≠ some (ch '0')) ∧ s = sign neg ++ ds ++ ch 'e' :: r := by
  cases s with
  | nil => simp [skipInteger]
  | cons c t =>
    by_cases hc : c = ch '-'
    · subst hc
      have hskip : skipInteger (ch '-' :: t) = if t.head? = some (ch '0') then none else skipDigits t := by
        cases t <;> simp [skipInteger, skipDigits]
      rw [hskip]
      constructor
      · intro h
        split_ifs at h with hzero
        obtain ⟨ds, hds, rfl⟩ := skipDigits_eq_some.mp h
        exact ⟨true, ds, hds, fun _ h0 ↦ hzero (by simp [h0]), rfl⟩
      rintro ⟨neg, ds, hds, hn, h⟩
      cases neg with
      | false =>
        cases ds with
        | nil => exact absurd (cons.inj h).1 (by decide)
        | cons d ds => exact absurd (cons.inj h).1.symm (ne_of_isDigit (hds d mem_cons_self) rfl)
      | true =>
        obtain rfl : t = ds ++ ch 'e' :: r := (cons.inj h).2
        rw [if_neg, skipDigits_eq_some]
        · exact ⟨ds, hds, rfl⟩
        cases ds with
        | nil => exact mt Option.some.inj (by decide)
        | cons d ds => simpa using hn rfl
    · simp only [skipInteger, if_neg hc]
      rw [skipDigits_eq_some]
      constructor
      · rintro ⟨ds, hds, h⟩
        exact ⟨false, ds, hds, by simp, by simpa [sign] using h⟩
      rintro ⟨neg, ds, hds, hn, h⟩
      cases neg with
      | false => exact ⟨ds, hds, by simpa [sign] using h⟩
      | true => exact absurd (cons.inj h).1 hc

theorem skipInteger_moves (h : skipInteger s = some r) : r.length < s.length := by
  obtain ⟨neg, ds, -, -, rfl⟩ := skipInteger_eq_some.mp h
  simp only [length_append, length_cons]
  omega

def Scanner.Moves (scan : Scanner) : Prop := ∀ s p r, scan s = some (p, r) → r.length < s.length

theorem scanStep_eq_some {isMap : Bool} {lax lax' : Bool} : scanStep isMap scan lax s = some (lax', r) ↔
      ∃ t l, (if isMap then ∃ key, objectReadBencodeCString s = some (key, t) else t = s) ∧
        scan t = some (l, r) ∧ lax' = (lax || l) := by
  cases isMap
  · simp only [scanStep, Bool.false_eq_true, ↓reduceIte, bind_some, map_eq_some_iff, Prod.mk.injEq, Prod.exists]
    constructor
    · rintro ⟨l, t, h, rfl, rfl⟩
      exact ⟨s, l, rfl, h, rfl⟩
    · rintro ⟨t, l, rfl, h, rfl⟩
      exact ⟨l, r, h, rfl, rfl⟩
  simp only [scanStep, ↓reduceIte, bind_eq_some_iff, map_eq_some_iff, Prod.mk.injEq, Prod.exists, exists_eq_right]
  constructor
  · rintro ⟨t, hk, l, r', h, rfl, rfl⟩
    exact ⟨t, l, hk, h, rfl⟩
  · rintro ⟨t, l, hk, h, rfl⟩
    exact ⟨t, hk, l, r, h, rfl, rfl⟩

theorem consumes_scanStep (h : scan.Moves) (isMap : Bool) : Consumes (scanStep isMap scan) := by
  intro lax s lax' r hs
  obtain ⟨t, l, hk, hr, -⟩ := scanStep_eq_some.mp hs
  have ht : t.length ≤ s.length := by
    cases isMap with
    | false =>
      obtain rfl : t = s := hk
      exact le_rfl
    | true =>
      obtain ⟨key, hkey⟩ := hk
      exact (objectReadBencodeCString_moves hkey).le
  exact lt_of_lt_of_le (h t l r hr) ht

theorem scanItem_moves {inner : Option Scanner} (h : ∀ scan, inner = some scan → scan.Moves) :
    (scanItem inner).Moves := by
  intro s p r hs
  cases s with
  | nil => simp [scanItem] at hs
  | cons c s =>
    rw [scanItem] at hs
    split_ifs at hs with hi hl
    · obtain ⟨r', hr, heq⟩ := map_eq_some_iff.mp hs
      cases heq
      have := skipInteger_moves hr
      simp only [length_cons]
      omega
    · obtain ⟨scan, hscan, hloop⟩ := bind_eq_some_iff.mp hs
      have := readUntil_consumes (consumes_scanStep (h scan hscan) _) _ _ _ _ hloop
      simp only [length_cons]
      omega
    obtain ⟨⟨str, r'⟩, hr, heq⟩ := map_eq_some_iff.mp hs
    cases heq
    exact objectReadBencodeCString_moves hr

theorem scanLevels_moves (n : ℕ) : (scanLevels n).Moves := by
  induction n with
  | zero => exact scanItem_moves (by simp)
  | succ n ih =>
    refine scanItem_moves fun scan hs ↦ ?_
    cases hs
    exact ih

theorem readUntil_scanStep_flag (h : scan.Moves) (isMap lax : Bool) (s : Bytes) (g : Bytes → Option Bytes) :
    ((readUntil (ch 'e') (scanStep isMap scan) lax s).bind fun p ↦ g p.2) =
      (readUntil (ch 'e') (scanStep isMap scan) false s).bind fun p ↦ g p.2 := by
  have hstep := consumes_scanStep h isMap
  induction hl : s.length using Nat.strongRecOn generalizing s lax with
  | ind l ih =>
    cases s with
    | nil => rfl
    | cons a s =>
      by_cases ha : a = ch 'e'
      · subst ha
        simp
      rw [readUntil_step hstep ha, readUntil_step hstep ha]
      have hlax : scanStep isMap scan lax (a :: s) =
          (scanStep isMap scan false (a :: s)).map fun p ↦ (lax || p.1, p.2) := by
        cases isMap <;> simp [scanStep, map_bind]
      rw [hlax]
      cases hs : scanStep isMap scan false (a :: s) with
      | none => rfl
      | some p =>
        have hr := hstep _ _ _ _ hs
        simp only [map_some, bind_some]
        rw [ih _ (by omega) (lax || p.1) p.2 rfl, ih _ (by omega) p.1 p.2 rfl]

def finish : List Bool → Bytes → Option Bytes
  | [], s => some s
  | isMap :: stack, s =>
    (readUntil (ch 'e') (scanStep isMap (scanLevels (126 - stack.length))) false s).bind
      fun p ↦ finish stack p.2

theorem finish_step (isMap : Bool) (stack : List Bool) {c : UInt8} (hc : c ≠ ch 'e') (s : Bytes) :
    finish (isMap :: stack) (c :: s) =
      (if isMap then (objectReadBencodeCString (c :: s)).map Prod.snd else some (c :: s)).bind fun t ↦
        (scanLevels (126 - stack.length) t).bind fun p ↦ finish (isMap :: stack) p.2 := by
  have hm := scanLevels_moves (126 - stack.length)
  rw [finish, readUntil_step (consumes_scanStep hm isMap) hc, scanStep]
  simp only [bind_assoc, bind_map, Function.comp_def]
  congr 1
  funext t
  congr 1
  funext p
  rw [readUntil_scanStep_flag hm, finish]

theorem skipReturn_finish {next : List Bool → Bytes → Option Bytes} {stack : List Bool}
    (h : stack ≠ [] → next stack s = finish stack s) : skipReturn next stack s = finish stack s := by
  rw [skipReturn]
  split_ifs with hs
  · rw [hs, finish]
  · exact h hs

theorem skipSwitch_eq (next : List Bool → Bytes → Option Bytes) (stack : List Bool)
    (hstack : stack.length ≤ 127) (s : Bytes)
    (hnext : ∀ st r, st.length ≤ 127 → st ≠ [] → r.length < s.length → next st r = finish st r) :
    skipSwitch next stack s = (scanLevels (127 - stack.length) s).bind fun p ↦ finish stack p.2 := by
  cases s with
  | nil =>
    cases h : 127 - stack.length <;> rfl
  | cons c s =>
    have hscan : scanLevels (127 - stack.length) = scanItem
        (if stack.length = 127 then none else some (scanLevels (126 - stack.length))) := by
      split_ifs with h
      · rw [h]
        rfl
      · obtain ⟨k, hk⟩ : ∃ k, 127 - stack.length = k + 1 := ⟨126 - stack.length, by omega⟩
        rw [hk, scanLevels, show 126 - stack.length = k by omega]
    rw [hscan, skipSwitch, scanItem]
    split_ifs with hi hl hfull h127 h127
    · cases hr : skipInteger s with
      | none => rfl
      | some r =>
        have hlt := skipInteger_moves hr
        exact skipReturn_finish fun hne ↦ hnext _ _ hstack hne (by simp only [length_cons]; omega)
    · rfl
    · omega
    · omega
    · rw [bind_some, hnext _ _ (by simp only [length_cons]; omega) (cons_ne_nil _ _)
        (by simp), finish]
    cases hr : objectReadBencodeCString (c :: s) with
    | none => rfl
    | some p =>
      have hlt := objectReadBencodeCString_moves hr
      exact skipReturn_finish fun hne ↦ hnext _ _ hstack hne hlt

/-- The loop with its explicit stack closes the containers of the stack as the recursive
scanner does. -/
theorem skipLoop_finish (n : ℕ) (stack : List Bool) (s : Bytes) (hn : s.length < n) (hne : stack ≠ [])
    (hstack : stack.length ≤ 127) : skipLoop n stack s = finish stack s := by
  induction n generalizing stack s with
  | zero => omega
  | succ n ih =>
    obtain ⟨isMap, stack, rfl⟩ := exists_cons_of_ne_nil hne
    rw [length_cons] at hstack
    cases s with
    | nil => simp [skipLoop, finish]
    | cons c s =>
      rw [length_cons] at hn
      rw [skipLoop]
      split_ifs with he hmap
      · subst he
        exact skipReturn_finish fun h ↦ ih stack s (by omega) h (by omega)
      · cases hmap
        rw [finish_step true stack he, if_pos rfl, bind_map]
        cases hr : objectReadBencodeCString (c :: s) with
        | none => rfl
        | some p =>
          have hlt := objectReadBencodeCString_moves hr
          rw [length_cons] at hlt
          have hsw := skipSwitch_eq (skipLoop n) (true :: stack) (by simpa using hstack) p.2 fun st r h₁ h₂ h₃ ↦
            ih st r (by omega) h₂ h₁
          simpa using hsw
      · obtain rfl : isMap = false := by simpa using hmap
        rw [finish_step false stack he, if_neg (by simp), bind_some]
        have hsw := skipSwitch_eq (skipLoop n) (false :: stack) (by simpa using hstack) (c :: s)
          fun st r h₁ h₂ h₃ ↦ ih st r (by rw [length_cons] at h₃; omega) h₂ h₁
        simpa using hsw

theorem objectReadBencodeSkipC_eq (s : Bytes) : objectReadBencodeSkipC s = (scanLevels 127 s).map Prod.snd := by
  rw [objectReadBencodeSkipC]
  cases s with
  | nil => rfl
  | cons c s =>
    have hsw := skipSwitch_eq (skipLoop (s.length + 1)) [] (by simp) (c :: s) fun st r h₁ h₂ h₃ ↦
      skipLoop_finish _ st r (by simpa using h₃) h₂ h₁
    have hbind : ∀ o : Option (Bool × Bytes), (o.bind fun p ↦ finish [] p.2) = o.map Prod.snd := by
      intro o
      cases o <;> rfl
    rw [hbind] at hsw
    rw [length_cons, skipLoop]
    split_ifs with he hh
    · subst he
      have hstr : objectReadBencodeCString (ch 'e' :: s) = none := objectReadBencodeCString_none rfl (by decide) s
      rw [scanLevels, scanItem, if_neg (by decide), if_neg (by decide), hstr]
      rfl
    · simp at hh
    · exact hsw

open Rules

/-- The reader takes exactly what the scanner takes without meeting a lax item. -/
def Agrees (read : Reader (Object × Bool)) (scan : Scanner) : Prop :=
  ∀ s r, (∃ o, read s = some (o, r)) ↔ scan s = some (false, r)

section Loops

variable {γ : Type} {step : Step UInt8 γ} {isMap : Bool} {scan : Scanner}

theorem readUntil_scan_iff (hstep : Consumes step) (hscan : scan.Moves)
    (h : ∀ c s r, (∃ c', step c s = some (c', r)) ↔ scanStep isMap scan false s = some (false, r))
    (c : γ) (s r : Bytes) :
    (∃ c', readUntil (ch 'e') step c s = some (c', r)) ↔
      readUntil (ch 'e') (scanStep isMap scan) false s = some (false, r) := by
  have hcons := consumes_scanStep hscan isMap
  constructor
  · intro ⟨c', hc⟩
    obtain ⟨lax, hlax, rfl⟩ := readUntil_simulation hstep hcons (R := fun _ lax ↦ lax = false)
      (fun c lax s c' r hR hc ↦ ⟨false, by rw [hR]; exact (h c s r).mp ⟨c', hc⟩, rfl⟩) rfl hc
    exact hlax
  intro hs
  -- A flag that ends unset was never set, so every turn is one the other loop takes.
  have key := readUntil_induction hcons
    (motive := fun lax s lax' r ↦ lax' = false → lax = false ∧
      ∀ c, ∃ c', readUntil (ch 'e') step c s = some (c', r)) ?_ ?_ hs
  · exact (key rfl).2 c
  · intro lax s hlax
    exact ⟨hlax, fun c ↦ ⟨c, readUntil_stop c s⟩⟩
  intro lax a s lax₁ s₁ lax₂ s₂ ha h₁ _ ih hlax
  obtain ⟨hlax₁, hloop⟩ := ih hlax
  obtain ⟨t, l, ht, hl, hor⟩ := scanStep_eq_some.mp h₁
  obtain ⟨rfl, rfl⟩ : lax = false ∧ l = false := Bool.or_eq_false_iff.mp (hor.symm.trans hlax₁)
  refine ⟨rfl, fun c ↦ ?_⟩
  rw [hlax₁] at h₁
  obtain ⟨c₁, hc₁⟩ := (h c _ _).mpr h₁
  obtain ⟨c₂, hc₂⟩ := hloop c₁
  exact ⟨c₂, by rw [readUntil_step hstep ha, hc₁]; exact hc₂⟩

end Loops

variable {isMap lax u : Bool} {read : Reader (Object × Bool)} {inner : Option (Reader (Object × Bool))} {n m h : ℕ}
  {ts : List Token} {c : UInt8} {o : Object}

theorem scanStep_false_iff : scanStep isMap scan false s = some (false, r) ↔
      ∃ t, (if isMap then ∃ key, objectReadBencodeCString s = some (key, t) else t = s) ∧
        scan t = some (false, r) := by
  rw [scanStep_eq_some]
  constructor
  · intro ⟨t, l, ht, hl, hor⟩
    obtain rfl : l = false := by simpa using hor.symm
    exact ⟨t, ht, hl⟩
  · intro ⟨t, ht, hl⟩
    exact ⟨t, false, ht, hl, rfl⟩

theorem listStep_scan_iff (h : Agrees read scan) (c : List Object × Bool) (s r : Bytes) :
    (∃ c', cRules.listStep read c s = some (c', r)) ↔ scanStep false scan false s = some (false, r) := by
  rw [scanStep_false_iff]
  constructor
  · intro ⟨c', hc⟩
    obtain ⟨o, ho, -⟩ := listStep_eq_some.mp hc
    exact ⟨s, rfl, (h s r).mp ⟨o, ho⟩⟩
  intro ⟨t, ht, hl⟩
  obtain rfl : t = s := ht
  obtain ⟨o, ho⟩ := (h t r).mpr hl
  exact ⟨_, listStep_eq_some.mpr ⟨o, ho, rfl⟩⟩

theorem mapStep_scan_iff (h : Agrees read scan) (c : List (Bytes × Object) × Bytes × Bool) (s r : Bytes) :
    (∃ c', cRules.mapStep read c s = some (c', r)) ↔ scanStep true scan false s = some (false, r) := by
  rw [scanStep_false_iff]
  constructor
  · intro ⟨c', hc⟩
    obtain ⟨str, t, o, hkey, ho, -⟩ := mapStep_eq_some.mp hc
    exact ⟨t, ⟨str, hkey⟩, (h t r).mp ⟨o, ho⟩⟩
  intro ⟨t, ⟨key, hkey⟩, hl⟩
  obtain ⟨o, ho⟩ := (h t r).mpr hl
  exact ⟨_, mapStep_eq_some.mpr ⟨key, t, o, hkey, ho, rfl⟩⟩

theorem integer_scan_iff (s r : Bytes) :
    (∃ neg ds, Digits ds ∧ SignOk neg ds ∧ s = sign neg ++ ds ++ ch 'e' :: r) ↔
      skipInteger s = some r ∧ s.take 2 ≠ [ch '-', ch 'e'] := by
  rw [skipInteger_eq_some]
  constructor
  · rintro ⟨neg, ds, hds, hn, hs⟩
    refine ⟨⟨neg, ds, hds, fun hneg ↦ ?_, hs⟩, ?_⟩
    · obtain ⟨d, t, rfl, h0⟩ := hn hneg
      simpa using h0
    subst hs
    cases neg with
    | true =>
      obtain ⟨d, t, rfl, -⟩ := hn rfl
      have hd : d ≠ ch 'e' := ne_of_isDigit (hds d mem_cons_self) rfl
      simp [sign, hd]
    | false =>
      cases ds with
      | nil => exact fun h ↦ absurd (cons.inj h).1 (by decide)
      | cons d t =>
        have hd : d ≠ ch '-' := ne_of_isDigit (hds d mem_cons_self) rfl
        simp [sign, hd]
  · rintro ⟨⟨neg, ds, hds, hn, hs⟩, hne⟩
    refine ⟨neg, ds, hds, fun hneg ↦ ?_, hs⟩
    subst hneg
    cases ds with
    | nil => simp [hs, sign] at hne
    | cons d t => exact ⟨d, t, rfl, by simpa using hn rfl⟩

theorem agrees_item {innerScan : Option Scanner}
    (hm : ∀ read, inner = some read → read.Moves) (hms : ∀ scan, innerScan = some scan → scan.Moves)
    (h : (inner = none ∧ innerScan = none) ∨
      ∃ read scan, inner = some read ∧ innerScan = some scan ∧ Agrees read scan) :
    Agrees (cRules.readItem inner) (scanItem innerScan) := by
  intro s r
  cases s with
  | nil => simp [readItem, scanItem]
  | cons c s =>
    by_cases hi : c = ch 'i'
    · subst hi
      simp only [Prod.exists, objectReadItem_integer, scanItem, ↓reduceIte, map_eq_some_iff, Prod.mk.injEq,
        decide_eq_false_iff_not]
      have hiff := integer_scan_iff s r
      constructor
      · rintro ⟨o, u, neg, ds, hds, hn, hs, _, _⟩
        obtain ⟨hr, hlax⟩ := hiff.mp ⟨neg, ds, hds, hn, hs⟩
        exact ⟨r, hr, hlax, rfl⟩
      rintro ⟨r', hr, hlax, hrr⟩
      rw [hrr] at hr
      obtain ⟨neg, ds, hds, hn, hs⟩ := hiff.mpr ⟨hr, hlax⟩
      exact ⟨_, _, neg, ds, hds, hn, hs, rfl, rfl⟩
    by_cases hl : c = ch 'l'
    · subst hl
      rw [scanItem, if_neg (by decide), if_pos (.inl rfl)]
      simp only [readItem_list]
      rcases h with ⟨rfl, rfl⟩ | ⟨read, scan, rfl, rfl, hag⟩
      · simp
      have hloop := readUntil_scan_iff (consumes_listStep (hm read rfl)) (hms scan rfl)
        (listStep_scan_iff hag) ([], false) s r
      rw [bind_some, show (ch 'l' == ch 'd') = false from rfl, ← hloop]
      constructor
      · rintro ⟨o, read', l, u, hr, hl, _⟩
        cases hr
        exact ⟨_, hl⟩
      · rintro ⟨⟨l, u⟩, hl⟩
        exact ⟨_, read, l, u, rfl, hl, rfl⟩
    by_cases hd : c = ch 'd'
    · subst hd
      rw [scanItem, if_neg (by decide), if_pos (.inr rfl)]
      simp only [readItem_map]
      rcases h with ⟨rfl, rfl⟩ | ⟨read, scan, rfl, rfl, hag⟩
      · simp
      have hloop := readUntil_scan_iff (consumes_mapStep (hm read rfl)) (hms scan rfl)
        (mapStep_scan_iff hag) ([], [], false) s r
      rw [bind_some, show (ch 'd' == ch 'd') = true from rfl, ← hloop]
      constructor
      · rintro ⟨o, read', m, prev, u, hr, hl, _⟩
        cases hr
        exact ⟨_, hl⟩
      · rintro ⟨⟨m, prev, u⟩, hl⟩
        exact ⟨_, read, m, prev, u, rfl, hl, rfl⟩
    · rw [scanItem, if_neg hi, if_neg (by simp [hl, hd])]
      by_cases hc : isDigit c = true
      · rw [readItem_digit hc, cRules_str]
        cases objectReadBencodeCString (c :: s) <;> simp [hc]
      · rw [readItem_other hi hl hd hc]
        cases objectReadBencodeCString (c :: s) <;> simp [hc]

theorem agrees_levels (n : ℕ) : Agrees (cRules.readLevels n) (scanLevels n) := by
  induction n with
  | zero => exact agrees_item (by simp) (by simp) (.inl ⟨rfl, rfl⟩)
  | succ n ih =>
    refine agrees_item ?_ ?_ (.inr ⟨_, _, rfl, rfl, ih⟩)
    · intro read hr
      cases hr
      exact cRules_moves.readLevels n
    intro scan hs
    cases hs
    exact scanLevels_moves n

theorem scanStep_mono {scan' : Scanner}
    (h : ∀ s lax r, scan s = some (lax, r) → scan' s = some (lax, r)) {lax' : Bool}
    (hs : scanStep isMap scan lax s = some (lax', r)) : scanStep isMap scan' lax s = some (lax', r) := by
  obtain ⟨t, l, ht, hl, hor⟩ := scanStep_eq_some.mp hs
  exact scanStep_eq_some.mpr ⟨t, l, ht, h t l r hl, hor⟩

theorem scanItem_mono {inner inner' : Option Scanner}
    (h : ∀ scan, inner = some scan → ∃ scan', inner' = some scan' ∧ scan.Moves ∧ scan'.Moves ∧
      ∀ s lax r, scan s = some (lax, r) → scan' s = some (lax, r))
    (hs : scanItem inner s = some (lax, r)) :
    scanItem inner' s = some (lax, r) := by
  cases s with
  | nil => simp [scanItem] at hs
  | cons c s =>
    rw [scanItem] at hs ⊢
    split_ifs at hs ⊢ with hi hl
    · exact hs
    · obtain ⟨scan, hscan, hloop⟩ := bind_eq_some_iff.mp hs
      obtain ⟨scan', rfl, hm, hm', hle⟩ := h scan hscan
      exact readUntil_mono (consumes_scanStep hm _) (consumes_scanStep hm' _)
        (fun b s b' r ↦ scanStep_mono hle) hloop
    · exact hs

theorem scanLevels_mono (hnm : n ≤ m) (h : scanLevels n s = some (lax, r)) : scanLevels m s = some (lax, r) := by
  induction m generalizing n s lax r with
  | zero =>
    obtain rfl : n = 0 := by omega
    exact h
  | succ m ih =>
    cases n with
    | zero =>
      have h₀ := h
      exact scanItem_mono (by simp) h₀
    | succ n =>
      refine scanItem_mono (fun scan hscan ↦ ?_) h
      cases hscan
      exact ⟨_, rfl, scanLevels_moves n, scanLevels_moves m, fun s lax r hs ↦ ih (by omega) hs⟩

/-- The most containers that are open at once in a token sequence, with `d` open before. -/
def nesting (d : ℕ) : List Token → ℕ
  | [] => d
  | .list :: ts | .map :: ts => nesting (d + 1) ts
  | .close :: ts => max d (nesting (d - 1) ts)
  | _ :: ts => nesting d ts

theorem le_nesting (d : ℕ) (ts : List Token) : d ≤ nesting d ts := by
  induction ts generalizing d with
  | nil => exact le_rfl
  | cons t ts ih =>
    cases t with
    | close => exact le_max_left _ _
    | list | map => exact (Nat.le_succ d).trans (ih (d + 1))
    | _ => exact ih d

/-- Tokens that open `h` containers within each other and close all they open. -/
def Nest (h : ℕ) (ts : List Token) : Prop :=
  ∀ d rest, nesting d (ts ++ rest) = max (d + h) (nesting d rest)

theorem nest_string (ds str : Bytes) : Nest 0 [.string ds str] := by
  intro d rest
  have := le_nesting d rest
  simp [nesting, this]

theorem Nest.append {h' : ℕ} {us : List Token} (ht : Nest h ts) (hu : Nest h' us) :
    Nest (max h h') (ts ++ us) := by
  intro d rest
  rw [append_assoc, ht, hu]
  omega

theorem Nest.eq_nesting (ht : Nest h ts) : nesting 0 ts = h := by
  have := ht 0 []
  simpa [nesting] using this

/-- The step of a container loop over a reader with any number of levels: it reads tokens
of some nesting, and reads them alike with every number of levels that allows for it. -/
def StepNests {β : Type} (step : ℕ → Step UInt8 β) (n : ℕ) : Prop :=
  ∀ b s b' r, step n b s = some (b', r) → ∃ ts h, Lexes s ts r ∧ Nest h ts ∧ h ≤ n ∧
    ∀ m, h ≤ m → step m b s = some (b', r)

theorem readUntil_nests {β : Type} {step : ℕ → Step UInt8 β} (hc : ∀ m, Consumes (step m))
    (h : StepNests step n) {b b' : β}
    (hs : readUntil (ch 'e') (step n) b s = some (b', r)) :
    ∃ ts h, Lexes s (ts ++ [.close]) r ∧ Nest h ts ∧ h ≤ n ∧
      ∀ m, h ≤ m → readUntil (ch 'e') (step m) b s = some (b', r) := by
  refine readUntil_induction (hc n) (motive := fun b s b' r ↦ ∃ ts h, Lexes s (ts ++ [.close]) r ∧
    Nest h ts ∧ h ≤ n ∧ ∀ m, h ≤ m → readUntil (ch 'e') (step m) b s = some (b', r)) ?_ ?_ hs
  · intro b s
    refine ⟨[], 0, .single Token.close trivial, ?_, Nat.zero_le n, fun m _ ↦ readUntil_stop b s⟩
    intro d rest
    simp [le_nesting d rest]
  intro b a s b₁ s₁ b₂ s₂ ha h₁ _ ih
  obtain ⟨ts, h, hts, hn, hle, hm⟩ := h _ _ _ _ h₁
  obtain ⟨us, h', hus, hn', hle', hm'⟩ := ih
  refine ⟨ts ++ us, max h h', ?_, hn.append hn', max_le hle hle', fun m hmax ↦ ?_⟩
  · rw [append_assoc]
    exact hts.append hus
  · rw [readUntil_step (hc m) ha, hm m (le_trans (le_max_left _ _) hmax)]
    exact hm' m (le_trans (le_max_right _ _) hmax)

theorem nest_container {t : Token} (ht : t = .list ∨ t = .map)
    (hts : Nest h ts) : Nest (h + 1) (t :: (ts ++ [.close])) := by
  have hcons : ∀ d us, nesting d (t :: us) = nesting (d + 1) us := by
    intro d us
    rcases ht with rfl | rfl <;> rfl
  intro d rest
  rw [cons_append, hcons, append_assoc, hts, singleton_append, nesting]
  simp only [Nat.add_sub_cancel]
  omega

/-- The reader of so many levels takes tokens of some nesting, and so does every one with levels enough. -/
def ReadsNested (n : ℕ) : Prop := ∀ s p r, cRules.readLevels n s = some (p, r) →
  ∃ ts h, Lexes s ts r ∧ Nest h ts ∧ h ≤ n ∧ ∀ m, h ≤ m → cRules.readLevels m s = some (p, r)

section

variable (hread : ReadsNested n)
include hread

theorem stepNests_list : StepNests (fun m ↦ cRules.listStep (cRules.readLevels m)) n := by
  intro b s b' r hs
  obtain ⟨o, ho, hb⟩ := listStep_eq_some.mp hs
  obtain ⟨ts, h, hts, hn, hle, hm⟩ := hread _ _ _ ho
  exact ⟨ts, h, hts, hn, hle, fun m hm' ↦ listStep_eq_some.mpr ⟨o, hm m hm', hb⟩⟩

theorem stepNests_map : StepNests (fun m ↦ cRules.mapStep (cRules.readLevels m)) n := by
  intro b s b' r hs
  obtain ⟨str, t, o, hkey, ho, hb⟩ := mapStep_eq_some.mp hs
  rw [cRules_str] at hkey
  obtain ⟨ds, hds, rfl, -⟩ := reading_string hkey
  obtain ⟨ts, h, hts, hn, hle, hm⟩ := hread _ _ _ ho
  refine ⟨.string ds str :: ts, h, .cons _ hds hts, ?_, hle, fun m hm' ↦ ?_⟩
  · have := (nest_string ds str).append hn
    simpa using this
  · exact mapStep_eq_some.mpr ⟨str, t, o, hkey, hm m hm', hb⟩

end

theorem item_nests (hin : ∀ read, inner = some read → ∃ k, n = k + 1 ∧ read = cRules.readLevels k ∧ ReadsNested k)
    (h : cRules.readItem inner s = some ((o, u), r)) :
    ∃ ts k, Lexes s ts r ∧ Nest k ts ∧ k ≤ n ∧ ∀ m, k ≤ m → cRules.readLevels m s = some ((o, u), r) := by
  have hlevels (hm : ∀ inner, cRules.readItem inner s = some ((o, u), r)) (m : ℕ) :
      cRules.readLevels m s = some ((o, u), r) := by
    cases m <;> exact hm _
  have hmoves (m : ℕ) := cRules_moves.readLevels m
  rcases objectReadItem_cases h with ⟨neg, ds, hds, hn, rfl, ho⟩ | ⟨read, l, t, hr, rfl, hl, rfl⟩ |
    ⟨read, l, prev, t, hr, rfl, hl, rfl⟩ | ⟨c, t, str, rfl, hc, hstr, -⟩
  · refine ⟨[.integer neg ds], 0, .single _ hds, fun d rest ↦ ?_, Nat.zero_le n, fun m _ ↦ hlevels ?_ m⟩
    · simp [nesting, le_nesting d rest]
    · exact fun inner ↦ objectReadItem_integer.mpr ⟨neg, ds, hds, hn, by simp, ho⟩
  · obtain ⟨n, rfl, rfl, hread⟩ := hin read hr
    obtain ⟨ts, k, hts, hn, hle, hm⟩ :=
      readUntil_nests (fun m ↦ consumes_listStep (hmoves m)) (stepNests_list hread) hl
    refine ⟨.list :: (ts ++ [.close]), k + 1, .cons Token.list trivial hts, nest_container (.inl rfl) hn, by omega, ?_⟩
    intro m hkm
    obtain ⟨m, rfl⟩ : ∃ j, m = j + 1 := ⟨m - 1, by omega⟩
    exact readItem_list.mpr ⟨_, l, u, rfl, hm m (by omega), rfl⟩
  · obtain ⟨n, rfl, rfl, hread⟩ := hin read hr
    obtain ⟨ts, k, hts, hn, hle, hm⟩ :=
      readUntil_nests (fun m ↦ consumes_mapStep (hmoves m)) (stepNests_map hread) hl
    refine ⟨.map :: (ts ++ [.close]), k + 1, .cons Token.map trivial hts, nest_container (.inr rfl) hn, by omega, ?_⟩
    intro m hkm
    obtain ⟨m, rfl⟩ : ∃ j, m = j + 1 := ⟨m - 1, by omega⟩
    exact readItem_map.mpr ⟨_, l, prev, u, rfl, hm m (by omega), rfl⟩
  · obtain ⟨ds, hds, -, hrd⟩ := reading_string hstr
    rw [readItem_digit hc] at h
    exact ⟨_, 0, hrd.lexes, nest_string ds str, Nat.zero_le n, fun m _ ↦ hlevels (fun _ ↦ (readItem_digit hc).trans h) m⟩

theorem objectReadLevels_nests (n : ℕ) : ReadsNested n := by
  induction n with
  | zero => exact fun s p r h ↦ item_nests (by simp) h
  | succ n ih =>
    refine fun s p r h ↦ item_nests (fun read hr ↦ ?_) h
    cases hr
    exact ⟨n, rfl, rfl, ih⟩

/-- Skipping and reading agree on a text: they end at the same place, but that skipping
may refuse more than 127 containers within each other. -/
def SkipAgrees (s : Bytes) : Prop :=
  (∀ r, objectReadBencodeSkipC s = some r → ∃ o u, objectReadBencodeC s 0 = some ((o, u), r)) ∧
  (∀ o u r, objectReadBencodeC s 0 = some ((o, u), r) →
    objectReadBencodeSkipC s = some r ∨ ∀ ts, Lexes s ts r → 127 < nesting 0 ts)

/-- Skipping takes a text with an integer `-` without digits, or with a string that has
no length where a value stands. -/
def SkipsLax (s : Bytes) : Prop := ∃ r, scanLevels 127 s = some (true, r)

theorem read_of_skip (hlax : ¬ SkipsLax s) (h : objectReadBencodeSkipC s = some r) :
    ∃ p, cRules.readLevels 127 s = some (p, r) := by
  rw [objectReadBencodeSkipC_eq] at h
  obtain ⟨⟨lax, r'⟩, hs, rfl⟩ := map_eq_some_iff.mp h
  cases lax with
  | false => exact (agrees_levels 127 s r').mpr hs
  | true => exact absurd ⟨r', hs⟩ hlax

theorem skipAgrees_iff (s : Bytes) : SkipAgrees s ↔ ¬ SkipsLax s := by
  constructor
  · intro ⟨hsound, _⟩ ⟨r, hr⟩
    have hskip : objectReadBencodeSkipC s = some r := by rw [objectReadBencodeSkipC_eq, hr]; rfl
    obtain ⟨o, u, hread⟩ := hsound r hskip
    have hread := (agrees_levels 1023 s r).mp ⟨_, hread⟩
    rw [scanLevels_mono (by norm_num) hr] at hread
    simp at hread
  intro hlax
  refine ⟨fun r hr ↦ ?_, fun o u r hr ↦ ?_⟩
  · obtain ⟨⟨o, u⟩, h⟩ := read_of_skip hlax hr
    obtain ⟨ts, k, -, -, hk, hm⟩ := objectReadLevels_nests _ _ _ _ h
    exact ⟨o, u, hm _ (hk.trans (by norm_num))⟩
  obtain ⟨ts, k, hts, hn, -, hm⟩ := objectReadLevels_nests _ _ _ _ hr
  by_cases hk : k ≤ 127
  · refine .inl ?_
    rw [objectReadBencodeSkipC_eq, (agrees_levels 127 s r).mp ⟨_, hm 127 hk⟩]
    rfl
  refine .inr fun us hus ↦ ?_
  rw [hus.unique hts, hn.eq_nesting]
  omega

end LibTorrent
