import LibTorrent.Object.Reading

namespace LibTorrent

open Int64 Lib Lib.Cursor Lib.Decimal List Object OrderedMap Rules

def stored (neg : Bool) (ds : Bytes) : Int64 :=
  (objectReadBencodeCValue (sign neg ++ ds ++ [ch 'e']) 0).1

variable {ds str s r t prev : Bytes} {neg u u' v : Bool} {m m' : List (Bytes × Object)} {o : Object}
  {l' l : List Object} {ts us : List Token} {read : Reader (Object × Bool)}

namespace Token

def values : Token → List Int64
  | integer neg ds => [stored neg ds]
  | _ => []

/-- A canonical number that the reader takes for what it says: an integer in the range of
64 bits that is stored unchanged, or a length equal to the number of bytes taken. -/
def Exact : Token → Prop
  | integer neg ds => Canonical ds ∧ ¬ (neg = true ∧ ds = [ch '0']) ∧ -2 ^ 63 ≤ denoted neg ds ∧
      denoted neg ds < 2 ^ 63 ∧ (stored neg ds).toInt = denoted neg ds
  | string ds str => Canonical ds ∧ value ds = str.length
  | list | map | close => True

def Overflows : Token → Prop
  | integer neg ds => if neg then 2 ^ 63 < value ds else 2 ^ 63 ≤ value ds
  | string ds _ => 2 ^ 32 ≤ value ds
  | list | map | close => False

def Accepted : Token → Prop
  | integer neg ds => SignOk neg ds
  | _ => True

end Token

theorem stored_eq (hds : Digits ds) (hn : SignOk neg ds) : stored neg ds = ofInt (denoted neg ds) := by
  rw [stored, objectReadBencodeCValue_text hds hn rfl (by decide)]

theorem toInt_stored_iff (hds : Digits ds) (hn : SignOk neg ds) :
    (stored neg ds).toInt = denoted neg ds ↔ -2 ^ 63 ≤ denoted neg ds ∧ denoted neg ds < 2 ^ 63 := by
  rw [stored_eq hds hn]
  constructor
  · intro h
    have h₁ := (ofInt (denoted neg ds)).le_toInt
    have h₂ := (ofInt (denoted neg ds)).toInt_lt
    omega
  · rintro ⟨h₁, h₂⟩
    exact toInt_ofInt_of_le h₁ h₂

theorem denoted_range (neg : Bool) (ds : Bytes) : (-2 ^ 63 ≤ denoted neg ds ∧ denoted neg ds < 2 ^ 63) ↔
      ¬ if neg then 2 ^ 63 < value ds else 2 ^ 63 ≤ value ds := by
  cases neg <;> simp only [denoted, Bool.false_eq_true, ↓reduceIte] <;> omega

namespace Object

mutual

def values : Object → List Int64
  | value _ v => [v]
  | list _ l => valuesList l
  | map _ m => valuesMap m
  | _ => []

def valuesList : List Object → List Int64
  | [] => []
  | o :: l => values o ++ valuesList l

def valuesMap : List (Bytes × Object) → List Int64
  | [] => []
  | (_, o) :: m => values o ++ valuesMap m

end

theorem valuesList_append (l l' : List Object) : valuesList (l ++ l') = valuesList l ++ valuesList l' := by
  induction l with
  | nil => rfl
  | cons o l ih => simp only [cons_append, valuesList, ih, append_assoc]

theorem valuesMap_insert {k : Bytes} {v : Int64}
    (h : v ∈ valuesMap (OrderedMap.insert m k o)) : v ∈ o.values ∨ v ∈ valuesMap m := by
  induction m with
  | nil => simpa [OrderedMap.insert, valuesMap] using h
  | cons p m ih =>
    rw [OrderedMap.insert] at h
    split_ifs at h
    · simpa [valuesMap] using h
    · rcases mem_append.mp h with h | h
      · exact .inl h
      · exact .inr (mem_append_right _ h)
    rcases mem_append.mp h with h | h
    · exact .inr (mem_append_left _ h)
    · exact (ih h).imp_right (mem_append_right _)

theorem encodeList_append (l l' : List Object) : encodeList 0 (l ++ l') = encodeList 0 l ++ encodeList 0 l' := by
  induction l with
  | nil => rfl
  | cons o l ih =>
    simp only [cons_append, encodeList, ih]
    split_ifs <;> simp

theorem encodeMap_append (m m' : List (Bytes × Object)) :
    encodeMap 0 (m ++ m') = encodeMap 0 m ++ encodeMap 0 m' := by
  induction m with
  | nil => rfl
  | cons p m ih =>
    simp only [cons_append, encodeMap, ih]
    split_ifs <;> simp

theorem encodeList_singleton (h : o.isEmpty = false) : encodeList 0 [o] = encode 0 o := by
  simp [encodeList, h]

theorem encodeMap_singleton (h : o.isEmpty = false) (k : Bytes) :
    encodeMap 0 [(k, o)] = stringText k ++ encode 0 o := by
  simp [encodeMap, h]

end Object

theorem integerText_denoted (hc : Canonical ds) (hn : SignOk neg ds) :
    integerText (denoted neg ds) = sign neg ++ ds := by
  have hd := decimal_value hc
  cases neg with
  | false => simp [integerText, denoted, sign, hd]
  | true =>
    have hpos : value ds ≠ 0 := by
      intro h0
      obtain ⟨d, t, rfl, hne⟩ := hn rfl
      rw [h0] at hd
      exact hne (List.cons.inj hd).1.symm
    have hlt : -(value ds : ℤ) < 0 := by omega
    simp only [integerText, denoted, sign, ↓reduceIte, if_pos hlt, Int.natAbs_neg, Int.natAbs_natCast, hd]
    rfl

/-- What the reader does with a text: it takes whole tokens, it stores the values of its
integer tokens only, and where these are exact and the keys in order its object has the
text that was read. -/
structure Reading (s : Bytes) (o : Object) (u : Bool) (r : Bytes) (ts : List Token) : Prop where
  lexes : Lexes s ts r
  accepted : ∀ t ∈ ts, t.Accepted
  isEmpty : o.isEmpty = false
  values : ∀ v ∈ o.values, v ∈ ts.flatMap Token.values
  encode : u = false → (∀ t ∈ ts, t.Exact) → o.encode 0 = ts.flatMap Token.text

theorem reading_integer (hds : Digits ds) (hn : SignOk neg ds) (r : Bytes) :
    Reading ((Token.integer neg ds).text ++ r) (.value 0 (ofInt (denoted neg ds))) false r
      [.integer neg ds] where
  lexes := .single _ hds
  accepted := by simpa [Token.Accepted] using hn
  isEmpty := rfl
  values := by simp [values, Token.values, stored_eq hds hn]
  encode := by
    intro _ hex
    obtain ⟨hc, -, -, -, hv⟩ := hex _ mem_cons_self
    rw [stored_eq hds hn] at hv
    simp [encode, Token.text, hv, integerText_denoted hc hn]

theorem stringText_exact (h : (Token.string ds str).Exact) : stringText str = (Token.string ds str).text := by
  rw [stringText, ← h.2, decimal_value h.1, Token.text]

theorem reading_string (h : objectReadBencodeCString s = some (str, r)) :
    ∃ ds, (Token.string ds str).WellFormed ∧ s = (Token.string ds str).text ++ r ∧
      Reading s (.string 0 str) false r [.string ds str] := by
  obtain ⟨ds, hds, rfl, hlen, -⟩ := objectReadBencodeCString_eq_some.mp h
  have hs : ds ++ ch ':' :: (str ++ r) = (Token.string ds str).text ++ r := by simp [Token.text]
  refine ⟨ds, ⟨hds, hlen⟩, hs, ?_⟩
  rw [hs]
  refine ⟨.single _ ⟨hds, hlen⟩, ?_, rfl, ?_, ?_⟩
  · simp [Token.Accepted]
  · simp [values]
  · intro _ hex
    simp [encode, stringText_exact (hex _ mem_cons_self)]

/-- The same over the turns of a loop, for the contents of a container. -/
structure LoopReading {α : Type} (vals : α → List Int64) (text : α → Bytes) (sorted : Prop) (a : α) (u : Bool)
    (s : Bytes) (a' : α) (u' : Bool) (r : Bytes) (ts : List Token) : Prop where
  lexes : Lexes s ts r
  accepted : ∀ t ∈ ts, t.Accepted
  values : ∀ v ∈ vals a', v ∈ vals a ∨ v ∈ ts.flatMap Token.values
  ordered : u' = false → u = false
  encode : sorted → u' = false → (∀ t ∈ ts, t.Exact) → text a' ++ [ch 'e'] = text a ++ ts.flatMap Token.text

abbrev ListReading := LoopReading valuesList (encodeList 0) True

/-- While the flag is not set every key is past those before it, so that its entry goes to the end of the map. -/
abbrev MapReading (m : List (Bytes × Object)) (prev : Bytes) :=
  LoopReading valuesMap (encodeMap 0) (∀ p ∈ m, p.1 ≤ prev) m

theorem loopReading_last {α : Type} {vals : α → List Int64} {text : α → Bytes} {sorted : Prop} (a : α) (u : Bool)
    (s : Bytes) : LoopReading vals text sorted a u (ch 'e' :: s) a u s [.close] where
  lexes := .single Token.close trivial
  accepted := by simp [Token.Accepted]
  values := fun v hv ↦ .inl hv
  ordered := id
  encode := by simp [Token.text]

theorem listReading_turn (ho : Reading s o v t ts) (h : ListReading (l ++ [o]) (u || v) t l' u' r us) :
    ListReading l u s l' u' r (ts ++ us) where
  lexes := ho.lexes.append h.lexes
  accepted := fun x hx ↦ (mem_append.mp hx).elim (ho.accepted x) (h.accepted x)
  values := by
    intro w hw
    rw [flatMap_append, mem_append]
    rcases h.values w hw with hl | ht
    · rw [valuesList_append, mem_append] at hl
      rcases hl with hl | ho'
      · exact .inl hl
      · exact .inr (.inl (ho.values w (by simpa [valuesList] using ho')))
    · exact .inr (.inr ht)
  ordered := fun hu ↦ (Bool.or_eq_false_iff.mp (h.ordered hu)).1
  encode := by
    intro _ hu hex
    have he := h.encode trivial hu fun x hx ↦ hex x (mem_append_right ts hx)
    have hv := (Bool.or_eq_false_iff.mp (h.ordered hu)).2
    have heo := ho.encode hv fun x hx ↦ hex x (mem_append_left us hx)
    rw [he, encodeList_append, encodeList_singleton ho.isEmpty, heo, flatMap_append, append_assoc]

theorem listReading_of_readUntil (hm : read.Moves)
    (hread : ∀ s o u r, read s = some ((o, u), r) → ∃ ts, Reading s o u r ts)
    (h : readUntil (ch 'e') (cRules.listStep read) (l, u) s = some ((l', u'), r)) :
    ∃ ts, ListReading l u s l' u' r ts := by
  refine readUntil_induction (consumes_listStep hm)
    (motive := fun b s b' r ↦ ∃ ts, ListReading b.1 b.2 s b'.1 b'.2 r ts) ?_ ?_ h
  · intro b s
    exact ⟨_, loopReading_last b.1 b.2 s⟩
  intro b a s b₁ s₁ b₂ s₂ _ hstep _ ih
  obtain ⟨o, ho, rfl⟩ := listStep_eq_some.mp hstep
  obtain ⟨ts, hts⟩ := hread _ _ _ _ ho
  obtain ⟨us, hus⟩ := ih
  exact ⟨ts ++ us, listReading_turn hts hus⟩

theorem keys_lt_of_ordered (hm : ∀ p ∈ m, p.1 ≤ prev)
    (hu : (decide (str ≤ prev) && !m.isEmpty) = false) : ∀ p ∈ m, p.1 < str := by
  intro p hp
  have hne : m.isEmpty = false := by
    cases m with
    | nil => simp at hp
    | cons q m => rfl
  have hlt : ¬ str ≤ prev := by simpa [hne] using hu
  exact Std.lt_of_le_of_lt (hm p hp) (Std.not_le.mp hlt)

theorem mapReading_turn (hstr : (Token.string ds str).WellFormed) (ho : Reading s o v t ts)
    (h : MapReading (insert m str o) str (u || (decide (str ≤ prev) && !m.isEmpty) || v) t
      m' u' r us) :
    MapReading m prev u ((Token.string ds str).text ++ s) m' u' r (.string ds str :: (ts ++ us)) where
  lexes := .cons _ hstr (ho.lexes.append h.lexes)
  accepted := by
    intro x hx
    rcases mem_cons.mp hx with rfl | hx
    · trivial
    · exact (mem_append.mp hx).elim (ho.accepted x) (h.accepted x)
  values := by
    intro w hw
    simp only [flatMap_cons, Token.values, nil_append, flatMap_append, mem_append]
    rcases h.values w hw with hl | ht
    · rcases valuesMap_insert hl with ho' | hl
      · exact .inr (.inl (ho.values w ho'))
      · exact .inl hl
    · exact .inr (.inr ht)
  ordered := fun hu ↦ (Bool.or_eq_false_iff.mp (Bool.or_eq_false_iff.mp (h.ordered hu)).1).1
  encode := by
    intro hm hu hex
    obtain ⟨hflag, hv⟩ := Bool.or_eq_false_iff.mp (h.ordered hu)
    have hlt := keys_lt_of_ordered hm (Bool.or_eq_false_iff.mp hflag).2
    have hins := insert_append o hlt
    have hle : ∀ p ∈ insert m str o, p.1 ≤ str := by
      intro p hp
      rw [hins, mem_append, mem_singleton] at hp
      rcases hp with hp | rfl
      · exact Std.le_of_lt (hlt p hp)
      · exact Std.le_refl _
    have he := h.encode hle hu fun x hx ↦ hex x (mem_cons_of_mem _ (mem_append_right ts hx))
    have heo := ho.encode hv fun x hx ↦ hex x (mem_cons_of_mem _ (mem_append_left us hx))
    rw [he, hins, encodeMap_append, encodeMap_singleton ho.isEmpty, heo,
      stringText_exact (hex _ mem_cons_self), flatMap_cons, flatMap_append]
    simp only [append_assoc]

theorem mapReading_of_readUntil (hm : read.Moves)
    (hread : ∀ s o u r, read s = some ((o, u), r) → ∃ ts, Reading s o u r ts)
    {prev' : Bytes}
    (h : readUntil (ch 'e') (cRules.mapStep read) (m, prev, u) s = some ((m', prev', u'), r)) :
    ∃ ts, MapReading m prev u s m' u' r ts := by
  refine readUntil_induction (consumes_mapStep hm)
    (motive := fun b s b' r ↦ ∃ ts, MapReading b.1 b.2.1 b.2.2 s b'.1 b'.2.2 r ts) ?_ ?_ h
  · intro b s
    exact ⟨_, loopReading_last b.1 b.2.2 s⟩
  intro b a s b₁ s₁ b₂ s₂ _ hstep _ ih
  obtain ⟨str, t, o, hkey, ho, rfl⟩ := mapStep_eq_some.mp hstep
  rw [cRules_str] at hkey
  obtain ⟨ds, hds, hs, -⟩ := reading_string hkey
  obtain ⟨ts, hts⟩ := hread _ _ _ _ ho
  obtain ⟨us, hus⟩ := ih
  rw [hs]
  exact ⟨_, mapReading_turn hds hts hus⟩

theorem reading_of_objectReadLevels {n : ℕ}
    (h : cRules.readLevels n s = some ((o, u), r)) : ∃ ts, Reading s o u r ts := by
  refine objectReadLevels_induction (motive := fun s o u r ↦ ∃ ts, Reading s o u r ts) ?_ h
  intro inner hm hread s o u r h
  rcases objectReadItem_cases h with ⟨neg, ds, hds, hn, rfl, rfl, rfl⟩ | ⟨read, l, t, hr, rfl, hl, rfl⟩ |
    ⟨read, m, prev, t, hr, rfl, hl, rfl⟩ | ⟨_, _, str, -, -, hstr, rfl, rfl⟩
  · exact ⟨_, reading_integer hds hn r⟩
  · obtain ⟨ts, hts⟩ := listReading_of_readUntil (hm read hr) (hread read hr) hl
    refine ⟨.list :: ts, .cons _ trivial hts.lexes, ?_, rfl, ?_, ?_⟩
    · simpa [Token.Accepted] using hts.accepted
    · intro v hv
      simpa [valuesList, Token.values] using hts.values v hv
    intro hu hex
    have he := hts.encode trivial hu fun x hx ↦ hex x (mem_cons_of_mem _ hx)
    simpa [encode, encodeList, Token.text] using he
  · obtain ⟨ts, hts⟩ := mapReading_of_readUntil (hm read hr) (hread read hr) hl
    refine ⟨.map :: ts, .cons _ trivial hts.lexes, ?_, rfl, ?_, ?_⟩
    · simpa [Token.Accepted] using hts.accepted
    · intro v hv
      simpa [valuesMap, Token.values] using hts.values v hv
    intro hu hex
    have he := hts.encode (by simp) hu fun x hx ↦ hex x (mem_cons_of_mem _ hx)
    simpa [encode, encodeMap, Token.text] using he
  · obtain ⟨ds, -, -, hrd⟩ := reading_string hstr
    exact ⟨_, hrd⟩

/-- A token of bencoding with an integer of 64 bits: its number is in canonical form, and a length is that of its string. -/
def Token.Valid : Token → Prop
  | integer neg ds =>
    Canonical ds ∧ ¬ (neg = true ∧ ds = [ch '0']) ∧ -2 ^ 63 ≤ denoted neg ds ∧ denoted neg ds < 2 ^ 63
  | string ds str => Canonical ds ∧ value ds = str.length
  | list | map | close => True

inductive Part
  | item
  | elements
  | entries

/-- The grammar of bencoding: an item with at most `depth` containers in each other, or what is left of a list or map. -/
inductive Bencodes : Part → ℕ → List Token → Prop
  | integer {n : ℕ} (neg : Bool) (ds : Bytes) : Bencodes .item n [.integer neg ds]
  | string {n : ℕ} (ds str : Bytes) : Bencodes .item n [.string ds str]
  | list {n : ℕ} {ts : List Token} : Bencodes .elements n ts → Bencodes .item (n + 1) (.list :: ts)
  | map {n : ℕ} {ts : List Token} : Bencodes .entries n ts → Bencodes .item (n + 1) (.map :: ts)
  | close {p : Part} {n : ℕ} : p ≠ .item → Bencodes p n [.close]
  | element {n : ℕ} {ts us : List Token} : Bencodes .item n ts → Bencodes .elements n us → Bencodes .elements n (ts ++ us)
  | entry {n : ℕ} {ts us : List Token} (ds str : Bytes) : Bencodes .item n ts → Bencodes .entries n us →
      Bencodes .entries n (.string ds str :: (ts ++ us))

theorem signOk_of_canonical (hc : Canonical ds) (hz : ¬ (neg = true ∧ ds = [ch '0'])) : SignOk neg ds := by
  intro hneg
  obtain ⟨d, t, rfl⟩ := exists_cons_of_ne_nil hc.1
  refine ⟨d, t, rfl, fun hd ↦ hz ⟨hneg, ?_⟩⟩
  have hlen := hc.2.2 (congrArg some hd)
  rw [hd, length_eq_zero_iff.mp (Nat.succ.inj hlen)]

theorem stringLength_valid (h : (Token.string ds str).Valid) (hlen : (Token.string ds str).text.length < 2 ^ 32) :
    stringLength ds = str.length := by
  simp only [Token.text, length_append, length_cons] at hlen
  rw [stringLength, if_neg h.1.1, h.2, Nat.mod_eq_of_lt (by omega)]

theorem objectReadBencodeCString_valid (h : (Token.string ds str).Valid)
    (hlen : ((Token.string ds str).text ++ r).length < 2 ^ 32) :
    objectReadBencodeCString ((Token.string ds str).text ++ r) = some (str, r) := by
  rw [length_append] at hlen
  refine objectReadBencodeCString_eq_some.mpr
    ⟨ds, h.1.2.1, by simp [Token.text], (stringLength_valid h (by omega)).symm, ?_⟩
  simp only [Token.text, length_append, length_cons] at hlen
  rw [Nat.mod_eq_of_lt (by omega)]
  omega

theorem Token.Valid.exact {t : Token} (h : t.Valid) (hlen : t.text.length < 2 ^ 32) : t.WellFormed ∧ t.Exact := by
  cases t with
  | integer neg ds =>
    obtain ⟨hc, hz, hrange⟩ := h
    exact ⟨hc.2.1, hc, hz, hrange.1, hrange.2, (toInt_stored_iff hc.2.1 (signOk_of_canonical hc hz)).mpr hrange⟩
  | string ds str => exact ⟨⟨h.1.2.1, (stringLength_valid h hlen).symm⟩, h⟩
  | _ => exact ⟨trivial, trivial⟩

/-- The readers of the three parts. -/
def Part.Taken (n : ℕ) (s r : Bytes) : Part → Prop
  | .item => ∃ p, cRules.readLevels n s = some (p, r)
  | .elements => ∀ b, ∃ p, readUntil (ch 'e') (cRules.listStep (cRules.readLevels n)) b s = some (p, r)
  | .entries => ∀ b, ∃ p, readUntil (ch 'e') (cRules.mapStep (cRules.readLevels n)) b s = some (p, r)

theorem objectReadLevels_eq (n : ℕ) : ∃ inner, cRules.readLevels n = cRules.readItem inner := by
  cases n with
  | zero | succ => exact ⟨_, rfl⟩

/-- What the grammar has is taken. -/
theorem taken_of_bencodes {p : Part} {n : ℕ} (h : Bencodes p n ts) (hts : ∀ t ∈ ts, t.Valid) (r : Bytes)
    (hlen : (ts.flatMap Token.text ++ r).length < 2 ^ 32) : p.Taken n (ts.flatMap Token.text ++ r) r := by
  induction h generalizing r with
  | integer neg ds =>
    obtain ⟨inner, hinner⟩ := objectReadLevels_eq ‹ℕ›
    obtain ⟨hc, hz, -⟩ := hts _ mem_cons_self
    refine ⟨_, hinner ▸ objectReadItem_integer.mpr ⟨neg, ds, hc.2.1, signOk_of_canonical hc hz, ?_, rfl, rfl⟩⟩
    simp
  | string ds str =>
    obtain ⟨inner, hinner⟩ := objectReadLevels_eq ‹ℕ›
    have hv := hts _ mem_cons_self
    rw [flatMap_singleton] at hlen ⊢
    have hread := objectReadBencodeCString_valid hv hlen
    obtain ⟨c, t, rfl⟩ := exists_cons_of_ne_nil hv.1.1
    refine ⟨(.string 0 str, false), ?_⟩
    rw [hinner, Token.text, cons_append, cons_append, readItem_digit (hv.1.2.1 c mem_cons_self)]
    exact congrArg (Option.map _) hread
  | list _ ih =>
    obtain ⟨⟨l, u⟩, hl⟩ := ih (fun t ht ↦ hts t (mem_cons_of_mem _ ht)) r (by simp at hlen ⊢; omega) ([], false)
    exact ⟨_, readItem_list.mpr ⟨_, l, u, rfl, hl, rfl⟩⟩
  | map _ ih =>
    obtain ⟨⟨m, prev, u⟩, hm⟩ := ih (fun t ht ↦ hts t (mem_cons_of_mem _ ht)) r (by simp at hlen ⊢; omega) ([], [], false)
    exact ⟨_, readItem_map.mpr ⟨_, m, prev, u, rfl, hm, rfl⟩⟩
  | @close p n hp =>
    cases p with
    | item => cases hp rfl
    | elements | entries => exact fun b ↦ ⟨b, readUntil_stop b r⟩
  | @element n ts us _ _ ih ih' =>
    rintro ⟨l, u⟩
    rw [flatMap_append, append_assoc] at hlen ⊢
    obtain ⟨o, ho⟩ := ih (fun t ht ↦ hts t (mem_append_left _ ht)) _ hlen
    rw [readUntil_turn (consumes_listStep (cRules_moves.readLevels n)) ?_ (listStep_eq_some.mpr ⟨o, ho, rfl⟩)]
    · exact ih' (fun t ht ↦ hts t (mem_append_right _ ht)) r (by simp at hlen ⊢; omega) _
    · obtain ⟨inner, hinner⟩ := objectReadLevels_eq n
      intro s
      rw [hinner, listStep, readItem_other (by decide) (by decide) (by decide) (by decide)]
      rfl
  | @entry n ts us ds str _ _ ih ih' =>
    rintro ⟨m, prev, u⟩
    rw [flatMap_cons, flatMap_append, append_assoc, append_assoc] at hlen ⊢
    have hkey := objectReadBencodeCString_valid (hts _ mem_cons_self) hlen
    have hrest : (ts.flatMap Token.text ++ (us.flatMap Token.text ++ r)).length < 2 ^ 32 := by
      rw [length_append] at hlen
      omega
    obtain ⟨o, ho⟩ := ih (fun t ht ↦ hts t (mem_cons_of_mem _ (mem_append_left _ ht))) _ hrest
    rw [readUntil_turn (consumes_mapStep (cRules_moves.readLevels n)) (mapStep_stop _ _)
      (mapStep_eq_some.mpr ⟨str, _, o, hkey, ho, rfl⟩)]
    exact ih' (fun t ht ↦ hts t (mem_cons_of_mem _ (mem_append_right _ ht))) r (by simp at hlen ⊢; omega) _

end LibTorrent
