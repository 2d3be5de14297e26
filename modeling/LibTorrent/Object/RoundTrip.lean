import LibTorrent.Object.Canonical
import LibTorrent.Object.Sink

namespace LibTorrent

open Lib Lib.Cursor Lib.Decimal List Option OrderedMap Rules

namespace Object

mutual

/-- Before each string and key of an object with `after` more bytes behind its text, the
reader sees enough text left. It counts what is left modulo `2 ^ 32`. -/
def Fits : Object → ℕ → Prop
  | string _ s, after => s.length < (s.length + after + 1) % 2 ^ 32
  | list _ l, after => FitsList l (after + 1)
  | map _ m, after => FitsMap m (after + 1)
  | _, _ => True

def FitsList : List Object → ℕ → Prop
  | [], _ => True
  | o :: l, after => Fits o ((encodeList 0 l).length + after) ∧ FitsList l after

def FitsMap : List (Bytes × Object) → ℕ → Prop
  | [], _ => True
  | (k, o) :: m, after =>
    k.length < (k.length + ((encode 0 o).length + ((encodeMap 0 m).length + after)) + 1) % 2 ^ 32 ∧
      Fits o ((encodeMap 0 m).length + after) ∧ FitsMap m after

end

namespace Plain

variable {n : ℕ} {o : Object}

theorem isEmpty_eq (h : Plain n o) : o.isEmpty = false := by
  cases h <;> rfl

theorem encode_head (h : Plain n o) : ∃ c s, o.encode 0 = c :: s ∧ c ≠ ch 'e' := by
  cases h with
  | value f v => exact ⟨_, _, by rw [encode], by decide⟩
  | string f s hs =>
    obtain ⟨c, t, hc⟩ := exists_cons_of_ne_nil (decimal_ne_nil s.length)
    exact ⟨c, t ++ ch ':' :: s, by rw [encode, stringText, hc]; rfl,
      ne_of_isDigit (isDigit_of_mem_decimal (hc ▸ mem_cons_self)) rfl⟩
  | list | map => exact ⟨_, _, by rw [encode], by decide⟩

end Plain

end Object

/-- Reading of a text is decided by a condition: it gives the object and the rest, or fails. -/
def ReadsIf {α : Type} (read : Reader (α × Bool)) (s : Bytes) (cond : Prop) (o : α) (r : Bytes) : Prop :=
  (cond → read s = some ((o, false), r)) ∧ (¬ cond → read s = none)

variable {n : ℕ} {s r : Bytes} {o : Object}

theorem stringLength_decimal (h : n < 2 ^ 32) : stringLength (decimal n) = n := by
  rw [stringLength, if_neg (decimal_ne_nil n), value_decimal, Nat.mod_eq_of_lt h]

theorem objectReadBencodeCString_stringText {k : Bytes} (hk : k.length < 2 ^ 32) (t : Bytes) :
    objectReadBencodeCString (stringText k ++ t) =
      if k.length < (k.length + t.length + 1) % 2 ^ 32 then some (k, t) else none := by
  have hs : stringText k ++ t = decimal k.length ++ ch ':' :: (k ++ t) := by simp [stringText]
  rw [hs, objectReadBencodeCString_digits (fun c hc ↦ isDigit_of_mem_decimal hc) rfl,
    stringLength_decimal hk, length_append, take_left, drop_left]
  simp

theorem readsIf_string (inner : Option (Reader (Object × Bool))) (hs : s.length < 2 ^ 31) (r : Bytes) :
    ReadsIf (cRules.readItem inner) (stringText s ++ r) (s.length < (s.length + r.length + 1) % 2 ^ 32)
      (.string 0 s) r := by
  have hread := objectReadBencodeCString_stringText (lt_trans hs (by norm_num)) r
  obtain ⟨c, t, hc⟩ := exists_cons_of_ne_nil (decimal_ne_nil s.length)
  have hdig : isDigit c = true := isDigit_of_mem_decimal (hc ▸ mem_cons_self)
  have htext : stringText s ++ r = c :: (t ++ ch ':' :: s ++ r) := by simp [stringText, hc]
  rw [htext] at hread ⊢
  refine ⟨fun h ↦ ?_, fun h ↦ ?_⟩
  · rw [readItem_digit hdig, cRules_str, hread, if_pos h]
    rfl
  · rw [readItem_digit hdig, cRules_str, hread, if_neg h]
    rfl

section Values

variable (v : Int64)

theorem integerText_eq : integerText v.toInt = sign (decide (v.toInt < 0)) ++ decimal v.toInt.natAbs := by
  by_cases h : v.toInt < 0 <;> simp [integerText, sign, h]

theorem denoted_decimal : denoted (decide (v.toInt < 0)) (decimal v.toInt.natAbs) = v.toInt := by
  by_cases h : v.toInt < 0 <;> simp only [denoted, value_decimal, h, decide_true, decide_false, ↓reduceIte,
    Bool.false_eq_true] <;> omega

theorem signOk_decimal : SignOk (decide (v.toInt < 0)) (decimal v.toInt.natAbs) := by
  intro hneg
  have hlt := of_decide_eq_true hneg
  obtain ⟨d, t, hd⟩ := exists_cons_of_ne_nil (decimal_ne_nil v.toInt.natAbs)
  have h0 : (decimal v.toInt.natAbs).head? ≠ some (ch '0') := decimal_head (by omega)
  refine ⟨d, t, hd, ?_⟩
  rw [hd] at h0
  simpa using h0

theorem digits_decimal (n : ℕ) : Digits (decimal n) := fun _ hc ↦ isDigit_of_mem_decimal hc

theorem objectReadItem_value (inner : Option (Reader (Object × Bool))) (r : Bytes) :
    cRules.readItem inner (ch 'i' :: (integerText v.toInt ++ [ch 'e']) ++ r) =
      some ((.value 0 v, false), r) := by
  rw [cons_append, objectReadItem_integer]
  refine ⟨_, _, digits_decimal _, signOk_decimal v, ?_, ?_, rfl⟩
  · simp [integerText_eq]
  · rw [denoted_decimal, Int64.ofInt_toInt]

end Values

section Loops

variable {read : Reader (Object × Bool)} {n : ℕ}

theorem readsIf_list (hm : read.Moves) (l acc : List Object) (hl : ∀ o ∈ l, o.Plain n)
    (hread : ∀ o ∈ l, ∀ r, ReadsIf read (o.encode 0 ++ r) (o.Fits r.length) o.clearFlags r) (r : Bytes) :
    ReadsIf (readUntil (ch 'e') (cRules.listStep read) (acc, false)) (Object.encodeList 0 l ++ ch 'e' :: r)
      (Object.FitsList l (r.length + 1)) (acc ++ Object.clearFlagsList l) r := by
  induction l generalizing acc with
  | nil => simp [ReadsIf, Object.encodeList, Object.clearFlagsList, Object.FitsList]
  | cons o l ih =>
    have ho := hl o mem_cons_self
    obtain ⟨c, s, hc, hne⟩ := ho.encode_head
    have htail := ih (acc ++ [o.clearFlags]) (fun p hp ↦ hl p (mem_cons_of_mem o hp))
      (fun p hp ↦ hread p (mem_cons_of_mem o hp))
    set rest := Object.encodeList 0 l ++ ch 'e' :: r with hrest
    have hlen : rest.length = (Object.encodeList 0 l).length + (r.length + 1) := by simp [hrest]
    have hitem := hread o mem_cons_self rest
    rw [hlen] at hitem
    have htext : Object.encodeList 0 (o :: l) ++ ch 'e' :: r = o.encode 0 ++ rest := by
      simp [Object.encodeList, ho.isEmpty_eq, hrest]
    -- The loop reads one element and goes on with the rest of the list.
    have hstep : readUntil (ch 'e') (cRules.listStep read) (acc, false) (o.encode 0 ++ rest) =
        (cRules.listStep read (acc, false) (o.encode 0 ++ rest)).bind
          fun p ↦ readUntil (ch 'e') (cRules.listStep read) p.1 p.2 := by
      rw [hc]
      exact readUntil_step (consumes_listStep hm) hne _ _
    rw [htext, ReadsIf, hstep]
    by_cases hfit : o.Fits ((Object.encodeList 0 l).length + (r.length + 1))
    · have hs : cRules.listStep read (acc, false) (o.encode 0 ++ rest) =
          some ((acc ++ [o.clearFlags], false), rest) := listStep_eq_some.mpr ⟨_, hitem.1 hfit, rfl⟩
      simp only [hs, bind_some, Object.FitsList, hfit, true_and]
      simpa [ReadsIf, Object.clearFlagsList] using htail
    have hs : cRules.listStep read (acc, false) (o.encode 0 ++ rest) = none := by simp [listStep, hitem.2 hfit]
    simp [hs, Object.FitsList, hfit]

theorem readsIf_map (hm : read.Moves) (m acc : List (Bytes × Object)) (prev : Bytes)
    (hacc : ∀ p ∈ acc, p.1 ≤ prev) (hnext : acc ≠ [] → ∀ p ∈ m, prev < p.1) (hsort : OrderedMap.Sorted m)
    (hk : ∀ p ∈ m, p.1.length < 2 ^ 31) (hv : ∀ p ∈ m, p.2.Plain n)
    (hread : ∀ p ∈ m, ∀ r, ReadsIf read (p.2.encode 0 ++ r) (p.2.Fits r.length) p.2.clearFlags r)
    (r : Bytes) :
    (Object.FitsMap m (r.length + 1) → ∃ prev',
      readUntil (ch 'e') (cRules.mapStep read) (acc, prev, false) (Object.encodeMap 0 m ++ ch 'e' :: r) =
        some ((acc ++ Object.clearFlagsMap m, prev', false), r)) ∧
    (¬ Object.FitsMap m (r.length + 1) →
      readUntil (ch 'e') (cRules.mapStep read) (acc, prev, false) (Object.encodeMap 0 m ++ ch 'e' :: r) = none) := by
  induction m generalizing acc prev with
  | nil => simp [Object.encodeMap, Object.clearFlagsMap, Object.FitsMap]
  | cons p m ih =>
    obtain ⟨k, o⟩ := p
    have ho := hv (k, o) mem_cons_self
    have hklen : k.length < 2 ^ 32 := lt_trans (hk (k, o) mem_cons_self) (by norm_num)
    have hlt : ∀ p ∈ acc, p.1 < k := by
      intro p hp
      exact Std.lt_of_le_of_lt (hacc p hp) (hnext (ne_nil_of_mem hp) (k, o) mem_cons_self)
    have hins : insert acc k o.clearFlags = acc ++ [(k, o.clearFlags)] :=
      insert_append _ hlt
    have hflag : (decide (k ≤ prev) && !acc.isEmpty) = false := by
      cases acc with
      | nil => simp
      | cons q acc =>
        have := hnext (cons_ne_nil q acc) (k, o) mem_cons_self
        simpa using Std.not_le.mpr this
    set rest := Object.encodeMap 0 m ++ ch 'e' :: r with hrest
    have hlen : rest.length = (Object.encodeMap 0 m).length + (r.length + 1) := by simp [hrest]
    have hkey := objectReadBencodeCString_stringText hklen (o.encode 0 ++ rest)
    rw [length_append, hlen] at hkey
    have hitem := hread (k, o) mem_cons_self rest
    rw [hlen] at hitem
    have htext : Object.encodeMap 0 ((k, o) :: m) ++ ch 'e' :: r =
        stringText k ++ (o.encode 0 ++ rest) := by
      simp [Object.encodeMap, ho.isEmpty_eq, hrest]
    obtain ⟨c, t, hc⟩ := exists_cons_of_ne_nil (decimal_ne_nil k.length)
    have hne : c ≠ ch 'e' := ne_of_isDigit (isDigit_of_mem_decimal (hc ▸ mem_cons_self)) rfl
    -- The loop reads a key and its value and goes on with the rest of the map.
    have hstep : readUntil (ch 'e') (cRules.mapStep read) (acc, prev, false) (stringText k ++ (o.encode 0 ++ rest)) =
        (cRules.mapStep read (acc, prev, false) (stringText k ++ (o.encode 0 ++ rest))).bind
          fun p ↦ readUntil (ch 'e') (cRules.mapStep read) p.1 p.2 := by
      rw [stringText, hc]
      exact readUntil_step (consumes_mapStep hm) hne _ _
    rw [htext, hstep, Object.FitsMap]
    by_cases hfk : k.length < (k.length + ((o.encode 0).length + ((Object.encodeMap 0 m).length +
        (r.length + 1))) + 1) % 2 ^ 32
    · rw [if_pos hfk] at hkey
      by_cases hfit : o.Fits ((Object.encodeMap 0 m).length + (r.length + 1))
      · have hs : cRules.mapStep read (acc, prev, false) (stringText k ++ (o.encode 0 ++ rest)) =
            some ((acc ++ [(k, o.clearFlags)], k, false), rest) :=
          mapStep_eq_some.mpr ⟨_, _, _, hkey, hitem.1 hfit, by simp [cRules, hins, hflag]⟩
        have htail := ih (acc ++ [(k, o.clearFlags)]) k ?_ ?_ (List.Pairwise.of_cons hsort)
          (fun p hp ↦ hk p (mem_cons_of_mem _ hp)) (fun p hp ↦ hv p (mem_cons_of_mem _ hp))
          (fun p hp ↦ hread p (mem_cons_of_mem _ hp))
        · simp only [hs, bind_some, hfk, hfit, true_and]
          simpa [Object.clearFlagsMap] using htail
        · intro p hp
          rw [mem_append, mem_singleton] at hp
          rcases hp with hp | rfl
          · exact Std.le_of_lt (hlt p hp)
          · exact Std.le_refl _
        · intro _ p hp
          exact rel_of_pairwise_cons hsort hp
      · have hs : cRules.mapStep read (acc, prev, false) (stringText k ++ (o.encode 0 ++ rest)) = none := by
          simp [mapStep, hkey, hitem.2 hfit]
        simp [hs, hfit]
    · rw [if_neg hfk] at hkey
      have hs : cRules.mapStep read (acc, prev, false) (stringText k ++ (o.encode 0 ++ rest)) = none := by
        simp [mapStep, hkey]
      simp only [hs, Option.bind_none, hfk, false_and, false_implies, not_false_eq_true, true_implies, and_self]

end Loops

theorem readsIf_item {inner : Option (Reader (Object × Bool))} (ho : o.Plain n) (r : Bytes)
    (hm : ∀ read, inner = some read → read.Moves) (hin : n ≠ 0 → ∃ read, inner = some read)
    (hread : ∀ read, inner = some read → ∀ m, n = m + 1 → ∀ o : Object, o.Plain m → ∀ r,
      ReadsIf read (o.encode 0 ++ r) (o.Fits r.length) o.clearFlags r) :
    ReadsIf (cRules.readItem inner) (o.encode 0 ++ r) (o.Fits r.length) o.clearFlags r := by
  cases ho with
  | value f v =>
    exact ⟨fun _ ↦ objectReadItem_value v inner r, fun h ↦ absurd trivial h⟩
  | string f s hs =>
    exact readsIf_string inner hs r
  | @list m f l hl =>
    obtain ⟨read, rfl⟩ := hin (by omega)
    have hloop := readsIf_list (hm read rfl) l [] hl (fun o ho ↦ hread read rfl m rfl o (hl o ho)) r
    have htext : (Object.list f l).encode 0 ++ r = ch 'l' :: (Object.encodeList 0 l ++ ch 'e' :: r) := by
      simp [Object.encode]
    rw [htext, Object.clearFlags]
    refine ⟨fun h ↦ ?_, fun h ↦ ?_⟩
    · exact readItem_list.mpr ⟨read, _, _, rfl, hloop.1 h, rfl⟩
    · rw [readItem_l, bind_some, hloop.2 h, Option.map_none]
  | @map m f l hsort hk hv =>
    obtain ⟨read, rfl⟩ := hin (by omega)
    have hloop := readsIf_map (hm read rfl) l [] [] (by simp) (by simp) hsort hk hv
      (fun p hp ↦ hread read rfl m rfl p.2 (hv p hp)) r
    have htext : (Object.map f l).encode 0 ++ r = ch 'd' :: (Object.encodeMap 0 l ++ ch 'e' :: r) := by
      simp [Object.encode]
    rw [htext, Object.clearFlags]
    refine ⟨fun h ↦ ?_, fun h ↦ ?_⟩
    · obtain ⟨prev, hp⟩ := hloop.1 h
      exact readItem_map.mpr ⟨read, _, prev, _, rfl, hp, rfl⟩
    · rw [readItem_d, bind_some, hloop.2 h, Option.map_none]

theorem readsIf_levels (ho : o.Plain n) (r : Bytes) :
    ReadsIf (cRules.readLevels n) (o.encode 0 ++ r) (o.Fits r.length) o.clearFlags r := by
  induction n generalizing o r with
  | zero =>
    exact readsIf_item ho r (by simp) (by simp) (by simp)
  | succ n ih =>
    refine readsIf_item ho r ?_ (fun _ ↦ ⟨_, rfl⟩) ?_
    · intro read hr
      cases hr
      exact cRules_moves.readLevels n
    intro read hr m hm o ho r
    cases hr
    obtain rfl : n = m := by omega
    exact ih ho r

namespace Object

def LexesExactly (s : Bytes) : Prop := ∃ us, Lexes s us [] ∧ ∀ t ∈ us, t.Exact

def Rewritable (o : Object) : Prop := o.Encodable 0 ∧ LexesExactly (o.encode 0)

theorem rewritable_value (f : UInt32) (v : Int64) : (value f v).Rewritable := by
  refine ⟨trivial, [.integer (decide (v.toInt < 0)) (decimal v.toInt.natAbs)], ⟨?_, ?_⟩, ?_⟩
  · simpa [Token.WellFormed] using digits_decimal _
  · simp [encode, Token.text, integerText_eq]
  have hst := stored_eq (digits_decimal _) (signOk_decimal v)
  rw [denoted_decimal, Int64.ofInt_toInt] at hst
  have hlo := v.le_toInt
  have hhi := v.toInt_lt
  have hzero : ¬ (decide (v.toInt < 0) = true ∧ decimal v.toInt.natAbs = [ch '0']) := by
    rintro ⟨hneg, hz⟩
    obtain ⟨d, t, hd, h0⟩ := signOk_decimal v hneg
    rw [hz] at hd
    exact h0 (List.cons.inj hd).1.symm
  simp only [mem_singleton, forall_eq, Token.Exact, denoted_decimal, hst]
  exact ⟨canonical_decimal _, hzero, hlo, hhi, trivial⟩

theorem lexes_stringText (hs : s.length < 2 ^ 32) : LexesExactly (stringText s) := by
  refine ⟨[.string (decimal s.length) s], ⟨?_, ?_⟩, ?_⟩
  · simpa [Token.WellFormed, stringLength_decimal hs] using digits_decimal _
  · simp [stringText, Token.text]
  · simpa [Token.Exact, value_decimal] using canonical_decimal _

theorem rewritable_string (f : UInt32) (hs : s.length < 2 ^ 32) : (string f s).Rewritable :=
  ⟨hs, lexes_stringText hs⟩

theorem lexes_single (t : Token) (ht : t.WellFormed) (he : t.Exact) : LexesExactly t.text :=
  ⟨[t], ⟨by simpa using ht, by simp⟩, by simpa using he⟩

theorem lexes_append {a b : Bytes} (ha : LexesExactly a) (hb : LexesExactly b) : LexesExactly (a ++ b) := by
  obtain ⟨us, hus, hue⟩ := ha
  obtain ⟨vs, hvs, hve⟩ := hb
  refine ⟨us ++ vs, ⟨?_, ?_⟩, ?_⟩
  · intro t ht
    exact (mem_append.mp ht).elim (hus.1 t) (hvs.1 t)
  · rw [hus.2, hvs.2]
    simp
  · intro t ht
    exact (mem_append.mp ht).elim (hue t) (hve t)

theorem lexes_list (l : List Object) (hl : ∀ o ∈ l, o.Rewritable) :
    EncodableList 0 l ∧ LexesExactly (encodeList 0 l) := by
  induction l with
  | nil => exact ⟨trivial, [], ⟨by simp, rfl⟩, by simp⟩
  | cons o l ih =>
    have ho := hl o mem_cons_self
    obtain ⟨henc, hlex⟩ := ih fun p hp ↦ hl p (mem_cons_of_mem o hp)
    refine ⟨⟨.inr (.inr ho.1), henc⟩, ?_⟩
    rw [encodeList]
    split_ifs
    · exact hlex
    · exact lexes_append ho.2 hlex

theorem lexes_map (m : List (Bytes × Object)) (hm : ∀ p ∈ m, p.1.length < 2 ^ 32 ∧ p.2.Rewritable) :
    EncodableMap 0 m ∧ LexesExactly (encodeMap 0 m) := by
  induction m with
  | nil => exact ⟨trivial, [], ⟨by simp, rfl⟩, by simp⟩
  | cons p m ih =>
    obtain ⟨k, o⟩ := p
    obtain ⟨hk, ho⟩ := hm (k, o) mem_cons_self
    obtain ⟨henc, hlex⟩ := ih fun p hp ↦ hm p (mem_cons_of_mem _ hp)
    refine ⟨⟨.inr (.inr ⟨hk, ho.1⟩), henc⟩, ?_⟩
    rw [encodeMap]
    split_ifs
    · exact hlex
    · exact lexes_append (lexes_stringText hk) (lexes_append ho.2 hlex)

theorem rewritable_list (f : UInt32) {l : List Object} (hl : ∀ o ∈ l, o.Rewritable) : (list f l).Rewritable := by
  obtain ⟨henc, hlex⟩ := lexes_list l hl
  have hclose := lexes_single .close trivial trivial
  exact ⟨henc, lexes_append (lexes_single .list trivial trivial) (lexes_append hlex hclose)⟩

theorem rewritable_map (f : UInt32) {m : List (Bytes × Object)}
    (hm : ∀ p ∈ m, p.1.length < 2 ^ 32 ∧ p.2.Rewritable) : (map f m).Rewritable := by
  obtain ⟨henc, hlex⟩ := lexes_map m hm
  have hclose := lexes_single .close trivial trivial
  exact ⟨henc, lexes_append (lexes_single .map trivial trivial) (lexes_append hlex hclose)⟩

theorem Plain.rewritable (h : Plain n o) : o.Rewritable := by
  induction h with
  | value f v => exact rewritable_value f v
  | string f s hs => exact rewritable_string f (lt_trans hs (by norm_num))
  | list f l hl ih => exact rewritable_list f ih
  | map f m hm hk hv ih => exact rewritable_map f fun p hp ↦ ⟨lt_trans (hk p hp) (by norm_num), ih p hp⟩

end Object

theorem length_of_objectReadBencodeCString {str : Bytes}
    (h : objectReadBencodeCString s = some (str, r)) : str.length < 2 ^ 32 := by
  obtain ⟨ds, -, -, hlen, -⟩ := objectReadBencodeCString_eq_some.mp h
  rw [hlen]
  exact stringLength_lt ds

theorem rewritable_of_objectReadLevels {u : Bool}
    (h : cRules.readLevels n s = some ((o, u), r)) : o.Rewritable := by
  refine objectReadLevels_induction (motive := fun _ o _ _ ↦ o.Rewritable) ?_ h
  intro inner hm hread s o u r h
  rcases objectReadItem_cases h with ⟨neg, ds, hds, hn, -, rfl, -⟩ | ⟨read, l, t, hr, -, hl, rfl⟩ |
    ⟨read, m, prev, t, hr, -, hl, rfl⟩ | ⟨_, _, str, -, -, hstr, rfl, -⟩
  · exact Object.rewritable_value 0 _
  · refine Object.rewritable_list 0 ?_
    refine readUntil_induction (consumes_listStep (hm read hr))
      (motive := fun b _ b' _ ↦ (∀ o ∈ b.1, o.Rewritable) → ∀ o ∈ b'.1, o.Rewritable) ?_ ?_ hl (by simp)
    · exact fun b s hb ↦ hb
    intro b a s b₁ s₁ b₂ s₂ _ hstep _ ih hb
    obtain ⟨o, ho, rfl⟩ := listStep_eq_some.mp hstep
    refine ih fun p hp ↦ ?_
    rw [mem_append, mem_singleton] at hp
    rcases hp with hp | rfl
    · exact hb p hp
    · exact hread read hr _ _ _ _ ho
  · refine Object.rewritable_map 0 ?_
    refine readUntil_induction (consumes_mapStep (hm read hr))
      (motive := fun b _ b' _ ↦ (∀ p ∈ b.1, p.1.length < 2 ^ 32 ∧ p.2.Rewritable) →
        ∀ p ∈ b'.1, p.1.length < 2 ^ 32 ∧ p.2.Rewritable) ?_ ?_ hl (by simp)
    · exact fun b s hb ↦ hb
    intro b a s b₁ s₁ b₂ s₂ _ hstep _ ih hb
    obtain ⟨str, t, o, hkey, ho, rfl⟩ := mapStep_eq_some.mp hstep
    rw [cRules_str] at hkey
    refine ih fun p hp ↦ ?_
    rcases mem_insert hp with rfl | hp
    · exact ⟨length_of_objectReadBencodeCString hkey, hread read hr _ _ _ _ ho⟩
    · exact hb p hp
  · exact Object.rewritable_string 0 (length_of_objectReadBencodeCString hstr)

def objectWrite (size : ℕ) (o : Object) : Option Bytes :=
  (objectWriteBencodeC objectWriteToStream [] size o 0).map Prod.fst

theorem objectWrite_eq {size : ℕ} (hpos : 0 < size) (hlt : size < 2 ^ 32)
    (ho : o.Encodable 0) : objectWrite size o = some (o.encode 0) := by
  have h := objectWriteBencodeC_absorb absorbs_stream [] hpos hlt (by simp) ho
  simpa [objectWrite] using h

def Token.IsCanonical : Token → Prop
  | .integer neg ds => Canonical ds ∧ ¬ (neg = true ∧ ds = [ch '0'])
  | .string ds _ => Canonical ds
  | .list | .map | .close => True

theorem Token.exact_iff_not_overflows {t : Token} (h : t.WellFormed) (ha : t.Accepted)
    (hc : t.IsCanonical) : t.Exact ↔ ¬ t.Overflows := by
  cases t with
  | integer neg ds =>
    rw [Overflows, ← denoted_range]
    exact ⟨fun he ↦ ⟨he.2.2.1, he.2.2.2.1⟩, fun hr ↦ ⟨hc.1, hc.2, hr.1, hr.2, (toInt_stored_iff h ha).mpr hr⟩⟩
  | string ds str =>
    have hlen := h.2
    rw [stringLength, if_neg hc.1] at hlen
    refine ⟨fun he ↦ ?_, fun hv ↦ ⟨hc, ?_⟩⟩
    · have := he.2
      rw [Overflows]
      omega
    · rw [Overflows] at hv
      omega
  | _ => simp [Exact, Overflows]

/-- Reading back what was written gives an equal object if and only if the text fits, and
rewriting canonical text that was read gives it back if and only if no number in it is
past its range. -/
theorem objectReadBencodeC_objectWrite_iff (size : ℕ) (hpos : 0 < size) (hlt : size < 2 ^ 32) :
    (∀ o : Object, o.Plain 1023 →
      ((∃ s, objectWrite size o = some s ∧
        objectReadBencodeC s 0 = some ((o.clearFlags, false), [])) ↔ o.Fits 0)) ∧
    (∀ s o ts, objectReadBencodeC s 0 = some ((o, false), []) → Lexes s ts [] →
      (∀ t ∈ ts, t.IsCanonical) → (objectWrite size o = some s ↔ ∀ t ∈ ts, ¬ t.Overflows)) := by
  refine ⟨fun o ho ↦ ?_, fun s o ts h hts hcan ↦ ?_⟩
  · have hread := readsIf_levels ho []
    rw [append_nil] at hread
    rw [objectWrite_eq hpos hlt ho.rewritable.1]
    constructor
    · rintro ⟨s, hs, hr⟩
      cases hs
      by_contra hfit
      rw [objectReadBencodeC, hread.2 hfit] at hr
      cases hr
    · exact fun hfit ↦ ⟨_, rfl, hread.1 hfit⟩
  · obtain ⟨us, hrd⟩ := reading_of_objectReadLevels h
    obtain rfl := hts.unique hrd.lexes
    have hexact : (∀ t ∈ ts, t.Exact) ↔ ∀ t ∈ ts, ¬ t.Overflows := forall₂_congr fun t ht ↦
      t.exact_iff_not_overflows (hts.1 t ht) (hrd.accepted t ht) (hcan t ht)
    obtain ⟨henc, vs, hvs, hve⟩ := rewritable_of_objectReadLevels h
    rw [objectWrite_eq hpos hlt henc, ← hexact, some.injEq]
    constructor
    · intro hs
      rw [hs] at hvs
      rwa [hts.unique hvs]
    · intro he
      rw [hrd.encode rfl he, hts.2, append_nil]

theorem objectReadBencodeC_objectWrite_list :
    ∃ s, objectWrite 1024 (.list 0 [.value 0 (-5), .string 0 [ch 'a']]) = some s ∧
      objectReadBencodeC s 0 = some ((.list 0 [.value 0 (-5), .string 0 [ch 'a']], false), []) := by
  refine ((objectReadBencodeC_objectWrite_iff 1024 (by norm_num) (by norm_num)).1 _ (.list 0 _ ?_)).mpr ?_
  · intro o ho
    simp only [mem_cons, not_mem_nil, or_false] at ho
    rcases ho with rfl | rfl
    · exact .value 0 _
    · exact .string 0 _ (by norm_num)
  · simp [Object.Fits, Object.FitsList, Object.encodeList]

/-- No written object is the beginning of another: what follows it does not change how it is read. -/
theorem objectWrite_unique {size : ℕ} (hpos : 0 < size) (hlt : size < 2 ^ 32) {o' : Object} {s' r' : Bytes}
    (ho : o.Plain 1023) (ho' : o'.Plain 1023) (hs : objectWrite size o = some s) (hs' : objectWrite size o' = some s')
    (hfit : o.Fits r.length) (h : s ++ r = s' ++ r') : o.clearFlags = o'.clearFlags ∧ r = r' := by
  rw [objectWrite_eq hpos hlt ho.rewritable.1] at hs
  rw [objectWrite_eq hpos hlt ho'.rewritable.1] at hs'
  cases hs
  cases hs'
  have hread := (readsIf_levels ho r).1 hfit
  rw [h] at hread
  by_cases hfit' : o'.Fits r'.length
  · simpa using hread.symm.trans ((readsIf_levels ho' r').1 hfit')
  · simpa using hread.symm.trans ((readsIf_levels ho' r').2 hfit')

theorem objectWrite_unique_list : ∃ s, objectWrite 9 (.list 0 [.value 0 7, .string 0 [ch 'a']]) = some s ∧
      objectWrite 9 (.list 1 [.value 1 7, .string 0 [ch 'a']]) = some s ∧
      (Object.list 0 [.value 0 7, .string 0 [ch 'a']]).clearFlags =
        (Object.list 1 [.value 1 7, .string 0 [ch 'a']]).clearFlags := by
  have hplain (f : UInt32) : (Object.list f [.value f 7, .string 0 [ch 'a']]).Plain 1023 := by
    refine .list f _ fun o ho ↦ ?_
    simp only [mem_cons, not_mem_nil, or_false] at ho
    rcases ho with rfl | rfl
    · exact .value f _
    · exact .string 0 _ (by norm_num)
  have hwrite (f : UInt32) : objectWrite 9 (.list f [.value f 7, .string 0 [ch 'a']]) = some _ :=
    objectWrite_eq (by decide) (by decide) (hplain f).rewritable.1
  have hfits : (Object.list 0 [.value 0 7, .string 0 [ch 'a']]).Fits [ch 'e'].length := by
    simp [Object.Fits, Object.FitsList, Object.encodeList]
  refine ⟨_, hwrite 0, hwrite 1, ?_⟩
  exact (objectWrite_unique (by decide) (by decide) (hplain 0) (hplain 1) (hwrite 0) (hwrite 1) hfits rfl).1

section Large

variable {b : Bytes} (hb : b.length = 2 ^ 31 - 1)

include hb

theorem plain_two_strings : (Object.list 0 [.string 0 b, .string 0 b]).Plain 1023 := by
  refine .list 0 _ fun o ho ↦ ?_
  obtain rfl : o = .string 0 b := by simpa using ho
  exact .string 0 b (by omega)

theorem not_fits_two_strings : ¬ (Object.list 0 [.string 0 b, .string 0 b]).Fits 0 := by
  have hdec : (decimal (2 ^ 31 - 1)).length = 10 := by norm_num [decimal]
  have hlen : (stringText b).length = 2 ^ 31 + 10 := by
    rw [stringText, length_append, length_cons, hb, hdec]
    norm_num
  have henc : Object.encodeList 0 [Object.string 0 b] = stringText b :=
    (Object.encodeList_singleton rfl).trans (by rw [Object.encode])
  simp only [Object.Fits, Object.FitsList, henc, hlen, hb]
  omega

end Large

/-- The text of two strings of `2 ^ 31 - 1` bytes is longer than `2 ^ 32` bytes, and the
reader then finds too little of it left for the first of them. -/
theorem objectReadBencodeC_objectWrite_large : ∃ b : Bytes, b = List.replicate (2 ^ 31 - 1) (ch 'a') ∧
      (Object.list 0 [.string 0 b, .string 0 b]).Plain 1023 ∧
      ∃ s, objectWrite 1024 (.list 0 [.string 0 b, .string 0 b]) = some s ∧
        objectReadBencodeC s 0 = none := by
  obtain ⟨b, hb⟩ : ∃ b, b = List.replicate (2 ^ 31 - 1) (ch 'a') := ⟨_, rfl⟩
  have hlen : b.length = 2 ^ 31 - 1 := by rw [hb, length_replicate]
  have ho := plain_two_strings hlen
  have hread := (readsIf_levels ho []).2 (not_fits_two_strings hlen)
  rw [append_nil] at hread
  exact ⟨b, hb, ho, _, objectWrite_eq (by norm_num) (by norm_num) ho.rewritable.1, hread⟩

end LibTorrent
