import LibTorrent.Object.Reading

namespace LibTorrent

open Lib Lib.Cursor Lib.Decimal List

def isSpace (c : UInt8) : Bool := c = 32 || (9 ≤ c && c ≤ 13)

def isSign (c : UInt8) : Bool := c = ch '+' || c = ch '-'

/-- A number as it may be written: white space, a sign, which is a minus sign if `true`, and
digits. -/
structure Numeral where
  blanks : Bytes
  sign : Option Bool
  digits : Bytes
  deriving DecidableEq

variable {c e : UInt8} {n : Numeral} {s' s : Bytes}

namespace Numeral

def signText : Option Bool → Bytes
  | none => []
  | some neg => [if neg then ch '-' else ch '+']

def text (n : Numeral) : Bytes := n.blanks ++ (signText n.sign ++ n.digits)

structure WellFormed (n : Numeral) : Prop where
  blanks : ∀ c ∈ n.blanks, isSpace c = true
  digits : Digits n.digits

def denoted (n : Numeral) : ℤ := if n.sign = some true then -(value n.digits : ℤ) else value n.digits

def length (n : Numeral) : ℕ := (n.denoted % 2 ^ 32).toNat

def Plain (n : Numeral) : Prop := n.blanks = [] ∧ n.sign = none ∧ n.digits ≠ []

def scan (s : Bytes) : Numeral × Bytes :=
  let t := s.dropWhile isSpace
  match t with
  | [] => (⟨s.takeWhile isSpace, none, []⟩, [])
  | c :: t' =>
    if isSign c then (⟨s.takeWhile isSpace, some (c = ch '-'), t'.takeWhile isDigit⟩, t'.dropWhile isDigit)
    else (⟨s.takeWhile isSpace, none, t.takeWhile isDigit⟩, t.dropWhile isDigit)

def Ends (e : UInt8) : Prop := isSpace e = false ∧ isSign e = false ∧ isDigit e = false

theorem ends_e : Ends (ch 'e') := ⟨rfl, rfl, rfl⟩

theorem ends_colon : Ends (ch ':') := ⟨rfl, rfl, rfl⟩

theorem not_isSpace_of_isDigit (h : isDigit c = true) : isSpace c = false ∧ isSign c = false := by
  have h32 : c ≠ 32 := ne_of_isDigit h rfl
  have hp : c ≠ ch '+' := ne_of_isDigit h rfl
  have hm : c ≠ ch '-' := ne_of_isDigit h rfl
  have h13 : ¬ c ≤ 13 := by
    rw [isDigit_iff] at h
    rw [UInt8.le_iff_toNat_le]
    simp
    omega
  simp [isSpace, isSign, h32, h13, hp, hm]

theorem scan_text (h : n.WellFormed) (he : Ends e) (r : Bytes) : scan (n.text ++ e :: r) = (n, e :: r) := by
  obtain ⟨blanks, sign, digits⟩ := n
  obtain ⟨hb, hd⟩ := h
  obtain ⟨hes, heg, hed⟩ := he
  obtain ⟨hd₁, hd₂⟩ := takeWhile_digits hd hed r
  have hblank {c : UInt8} {t : Bytes} (hc : isSpace c = false) :
      (blanks ++ c :: t).takeWhile isSpace = blanks ∧ (blanks ++ c :: t).dropWhile isSpace = c :: t := by
    rw [takeWhile_append_of_pos hb, dropWhile_append_of_pos hb,
      takeWhile_cons_of_neg (by simp [hc]), dropWhile_cons_of_neg (by simp [hc]), append_nil]
    exact ⟨rfl, rfl⟩
  cases sign with
  | some neg =>
    have htext : text ⟨blanks, some neg, digits⟩ ++ e :: r =
        blanks ++ (if neg then ch '-' else ch '+') :: (digits ++ e :: r) := by
      simp [text, signText]
    have hneg : isSpace (if neg then ch '-' else ch '+') = false := by cases neg <;> rfl
    obtain ⟨h₁, h₂⟩ := hblank hneg
    rw [htext, scan, h₁, h₂]
    cases neg <;> simp [isSign, hd₁, hd₂]
    decide
  | none =>
    have htext : text ⟨blanks, none, digits⟩ ++ e :: r = blanks ++ (digits ++ e :: r) := by
      simp [text, signText]
    rw [htext]
    cases digits with
    | nil =>
      obtain ⟨h₁, h₂⟩ := hblank hes
      rw [nil_append, scan, h₁, h₂]
      simp [heg, hed]
    | cons d ds =>
      obtain ⟨hds, hdg⟩ := not_isSpace_of_isDigit (hd d mem_cons_self)
      obtain ⟨h₁, h₂⟩ := hblank hds
      rw [cons_append, scan, h₁, h₂]
      simp only [hdg, Bool.false_eq_true, if_false]
      rw [cons_append] at hd₁ hd₂
      rw [hd₁, hd₂]

theorem scan_wellFormed (s : Bytes) : (scan s).1.WellFormed ∧ (scan s).1.text ++ (scan s).2 = s := by
  have hb : ∀ c ∈ s.takeWhile isSpace, isSpace c = true := all_eq_true.mp all_takeWhile
  have hs : s.takeWhile isSpace ++ s.dropWhile isSpace = s := takeWhile_append_dropWhile
  have hd (t : Bytes) : Digits (t.takeWhile isDigit) := fun c hc ↦ isDigit_of_mem_takeWhile hc
  rw [scan]
  cases ht : s.dropWhile isSpace with
  | nil =>
    rw [ht] at hs
    exact ⟨⟨hb, nofun⟩, by simpa [text, signText] using hs⟩
  | cons c t =>
    rw [ht] at hs
    dsimp only
    split_ifs with hsign
    · refine ⟨⟨hb, hd t⟩, ?_⟩
      have hc : signText (some (decide (c = ch '-'))) = [c] := by
        rw [isSign, Bool.or_eq_true, decide_eq_true_eq, decide_eq_true_eq] at hsign
        obtain rfl | rfl := hsign <;> rfl
      rw [text, hc, append_assoc, append_assoc, takeWhile_append_dropWhile]
      exact hs
    refine ⟨⟨hb, hd (c :: t)⟩, ?_⟩
    rw [text, signText, nil_append, append_assoc, takeWhile_append_dropWhile]
    exact hs

theorem text_append_inj {n' : Numeral} (h : n.WellFormed) (h' : n'.WellFormed) {e' : UInt8} (he : Ends e)
    (he' : Ends e') (heq : n.text ++ e :: s = n'.text ++ e' :: s') : n = n' ∧ e :: s = e' :: s' := by
  have hscan := scan_text h he s
  rw [heq, scan_text h' he' s'] at hscan
  exact ⟨(congrArg Prod.fst hscan).symm, (congrArg Prod.snd hscan).symm⟩

theorem head_of_plain (h : n.WellFormed) (hp : n.Plain) : ∃ c t, n.text = c :: t ∧ isDigit c = true := by
  obtain ⟨hb, hsign, hne⟩ := hp
  obtain ⟨c, t, hd⟩ := exists_cons_of_ne_nil hne
  refine ⟨c, t, ?_, h.digits c (hd ▸ mem_cons_self)⟩
  rw [text, hb, hsign, hd]
  rfl

theorem plain_of_head (h : n.WellFormed) (he : Ends e) (hc : isDigit c = true)
    (heq : n.text ++ e :: s = c :: s') : n.Plain := by
  obtain ⟨hcs, hcg⟩ := not_isSpace_of_isDigit hc
  have hscan := scan_text h he s
  rw [heq, scan, takeWhile_cons_of_neg (by simp [hcs]), dropWhile_cons_of_neg (by simp [hcs])] at hscan
  simp only [hcg, Bool.false_eq_true, if_false, takeWhile_cons_of_pos hc] at hscan
  rw [← (Prod.mk.inj hscan).1]
  exact ⟨rfl, rfl, cons_ne_nil _ _⟩

end Numeral

/-- The parts of bencoded text, with numbers as either reader might take them. -/
inductive Lexeme
  | integer (n : Numeral)
  | string (n : Numeral) (str : Bytes)
  | list
  | map
  | close
  deriving DecidableEq

namespace Lexeme

def text : Lexeme → Bytes
  | integer n => ch 'i' :: (n.text ++ [ch 'e'])
  | string n str => n.text ++ ch ':' :: str
  | list => [ch 'l']
  | map => [ch 'd']
  | close => [ch 'e']

def WellFormed : Lexeme → Prop
  | integer n => n.WellFormed
  | string n str => n.WellFormed ∧ str.length = n.length
  | list | map | close => True

def Buffered : Lexeme → Prop
  | integer n => n.blanks = [] ∧ (n.sign = none ∨ n.sign = some true ∧ ∃ d t, n.digits = d :: t ∧ d ≠ ch '0')
  | string n _ => n.Plain
  | list | map | close => True

def Streamed : Lexeme → Prop
  | integer n => n.digits ≠ [] ∧ -2 ^ 63 ≤ n.denoted ∧ n.denoted < 2 ^ 63
  | string n _ => n.digits ≠ [] ∧ value n.digits < 2 ^ 32
  | list | map | close => True

theorem text_ne_nil (t : Lexeme) : t.text ≠ [] := by
  cases t <;> simp [text]

theorem numeral_ne_cons (h : n.WellFormed) (he : Numeral.Ends e)
    (hc : Numeral.Ends c) (hne : e ≠ c) : n.text ++ e :: s ≠ c :: s' := by
  intro heq
  have hnil : Numeral.WellFormed ⟨[], none, []⟩ := ⟨nofun, nofun⟩
  obtain ⟨-, hcons⟩ := Numeral.text_append_inj h hnil he hc heq
  exact hne (cons.inj hcons).1

theorem text_append_inj {t t' : Lexeme} (h : t.WellFormed) (h' : t'.WellFormed)
    (heq : t.text ++ s = t'.text ++ s') : t = t' ∧ s = s' := by
  have hletter {n : Numeral} (hn : n.WellFormed) {str : Bytes} {c : UInt8} (hc : Numeral.Ends c) (hne : ch ':' ≠ c)
      {u u' : Bytes} : (string n str).text ++ u ≠ c :: u' := by
    rw [text, append_assoc]
    exact numeral_ne_cons hn Numeral.ends_colon hc hne
  cases t with
  | integer n =>
    cases t' with
    | integer n' =>
      have hi : n.text ++ ch 'e' :: s = n'.text ++ ch 'e' :: s' := by simpa [text] using heq
      obtain ⟨rfl, hs⟩ := Numeral.text_append_inj h h' Numeral.ends_e Numeral.ends_e hi
      exact ⟨rfl, (cons.inj hs).2⟩
    | string n' str' => exact absurd heq.symm (hletter h'.1 ⟨rfl, rfl, rfl⟩ (by decide))
    | _ => exact absurd (cons.inj heq).1 (by decide)
  | string n str =>
    cases t' with
    | string n' str' =>
      simp only [text, append_assoc, cons_append] at heq
      obtain ⟨rfl, hs⟩ := Numeral.text_append_inj h.1 h'.1 Numeral.ends_colon Numeral.ends_colon heq
      obtain ⟨rfl, rfl⟩ := append_inj (cons.inj hs).2 (h.2.trans h'.2.symm)
      exact ⟨rfl, rfl⟩
    | _ => exact absurd heq (hletter h.1 ⟨rfl, rfl, rfl⟩ (by decide))
  | _ =>
    cases t' with
    | string n' str' => exact absurd heq.symm (hletter h'.1 ⟨rfl, rfl, rfl⟩ (by decide))
    | _ =>
      first
      | exact ⟨rfl, (cons.inj heq).2⟩
      | exact absurd (cons.inj heq).1 (by decide)

end Lexeme

namespace Object

def flagUnordered : UInt32 := 0x100

def mark (u : Bool) : UInt32 := if u then flagUnordered else 0

def isUnordered (o : Object) : Bool := o.flags &&& flagUnordered ≠ 0

end Object

/-- A reader that leaves the mark `flag_unordered` on the parts of an object. -/
def markedRules (int : Bytes → Option (Int64 × Bytes)) (str : Bytes → Option (Bytes × Bytes)) : Rules Object :=
  ⟨int, str, fun o u ↦ o (Object.mark u), fun o ↦ (o, o.isUnordered)⟩

def bufferRules : Rules Object := markedRules objectReadBencodeCInteger objectReadBencodeCString

/-- `object_read_bencode_c` with the marks that it leaves on the parts of an object. -/
def objectReadBencodeCMarked (s : Bytes) (depth : ℕ) : Option (Object × Bytes) :=
  bufferRules.readLevels (1023 - depth) s

open Lexeme Lib.Lexing Option

def listTurn (spell : List Lexeme → Object → Prop) (b : List Object × Bool) (ts : List Lexeme)
    (b' : List Object × Bool) : Prop :=
  ∃ o, spell ts o ∧ b' = (b.1 ++ [o], b.2 || o.isUnordered)

def mapTurn (spell : List Lexeme → Object → Prop) (b : List (Bytes × Object) × Bytes × Bool) (ts : List Lexeme)
    (b' : List (Bytes × Object) × Bytes × Bool) : Prop :=
  ∃ n str us o, ts = .string n str :: us ∧ spell us o ∧
    b' = (OrderedMap.insert b.1 str o, str, b.2.2 || (decide (str ≤ b.2.1) && !b.1.isEmpty) || o.isUnordered)

inductive SpellsItem (inner : Option (List Lexeme → Object → Prop)) : List Lexeme → Object → Prop
  | integer (n : Numeral) : SpellsItem inner [.integer n] (.value 0 (Int64.ofInt n.denoted))
  | string (n : Numeral) (str : Bytes) (h : n.Plain) : SpellsItem inner [.string n str] (.string 0 str)
  | list {spell : List Lexeme → Object → Prop} {ts : List Lexeme} {l : List Object} {u : Bool}
    (hinner : inner = some spell) (h : Turns (listTurn spell) .close ([], false) ts (l, u)) :
    SpellsItem inner (.list :: ts) (.list (Object.mark u) l)
  | map {spell : List Lexeme → Object → Prop} {ts : List Lexeme} {m : List (Bytes × Object)} {prev : Bytes}
    {u : Bool} (hinner : inner = some spell)
    (h : Turns (mapTurn spell) .close ([], [], false) ts (m, prev, u)) :
    SpellsItem inner (.map :: ts) (.map (Object.mark u) m)

/-- The lexemes are those of an object with at most so many levels of containers. -/
def Spells : ℕ → List Lexeme → Object → Prop
  | 0 => SpellsItem none
  | n + 1 => SpellsItem (some (Spells n))

abbrev LexemesOf (s : Bytes) (ts : List Lexeme) (r : Bytes) : Prop := Cuts text Lexeme.WellFormed s ts r

def inputLimit : ℕ := 2 ^ 25

/-- The rules take exactly the numbers of a kind, and the strings with their lengths. -/
structure Rules.Takes (rules : Rules Object) (ok : Lexeme → Prop) : Prop where
  marked : ∃ int str, rules = markedRules int str
  int_iff : ∀ s v r, rules.int s = some (v, r) ↔
    ∃ n : Numeral, n.WellFormed ∧ ok (.integer n) ∧ s = n.text ++ ch 'e' :: r ∧ v = Int64.ofInt n.denoted
  str_iff : ∀ s str r, s.length < inputLimit → (rules.str s = some (str, r) ↔
    ∃ n : Numeral, (string n str).WellFormed ∧ ok (.string n str) ∧ s = n.text ++ ch ':' :: (str ++ r))
  str_moves : ∀ s str r, rules.str s = some (str, r) → r.length < s.length
  marks : ok .list ∧ ok .map ∧ ok .close

section

variable {rules : Rules Object} {ok : Lexeme → Prop} {s r : Bytes} {o : Object}

abbrev TakenAs (ok : Lexeme → Prop) (s : Bytes) (ts : List Lexeme) (r : Bytes) : Prop :=
  Cuts text (fun t ↦ t.WellFormed ∧ ok t) s ts r

namespace Rules

theorem Takes.moves (hR : rules.Takes ok) : rules.Moves where
  int s v r h := by
    obtain ⟨n, -, -, rfl, -⟩ := (hR.int_iff s v r).mp h
    simp only [length_cons, length_append]
    omega
  str := hR.str_moves

/-- What a reader takes is what the grammar spells, in lexemes that the rules take. -/
def Reads (ok : Lexeme → Prop) (read : Reader Object) (spell : List Lexeme → Object → Prop) : Prop :=
  ∀ s o r, s.length < inputLimit → (read s = some (o, r) ↔ ∃ ts, TakenAs ok s ts r ∧ spell ts o)

def Opens (spell : List Lexeme → Object → Prop) : Prop :=
  ∀ ts o, spell ts o → ∃ t us, ts = t :: us ∧ t ≠ .close

theorem head_ne_of_opens {t : Lexeme} {us : List Lexeme} (h : TakenAs ok s (t :: us) r) (ht : t ≠ .close) :
    s.head? ≠ some (ch 'e') := by
  obtain ⟨m, rfl, ⟨hwf, -⟩, -⟩ := h.uncons
  intro hhd
  cases hs : t.text ++ m with
  | nil =>
    rw [hs] at hhd
    cases hhd
  | cons a s' =>
    rw [hs] at hhd
    cases hhd
    have hclose : Lexeme.WellFormed .close := trivial
    exact ht (text_append_inj hwf hclose (hs.trans (singleton_append).symm)).1

theorem text_close : text .close = [ch 'e'] := rfl

section Loops

variable {read : Reader Object} {spell : List Lexeme → Object → Prop}

variable (hR : rules.Takes ok) (hm : read.Moves) (hr : Reads ok read spell)
include hR hm hr

theorem readUntil_list (ho : Opens spell) {b b' : List Object × Bool} (hs : s.length < inputLimit) :
    readUntil (ch 'e') (rules.listStep read) b s = some (b', r) ↔
      ∃ ts, TakenAs ok s ts r ∧ Turns (listTurn spell) .close b ts b' := by
  obtain ⟨int, str, rfl⟩ := hR.marked
  refine readUntil_iff_turns (consumes_listStep hm) text_close ⟨trivial, hR.marks.2.2⟩ ?_ ?_ hs
  · intro b s b' r hs
    rw [listStep_eq_some]
    constructor
    · rintro ⟨o, ho, rfl⟩
      obtain ⟨ts, hts, hspell⟩ := (hr s o r hs).mp ho
      exact ⟨ts, hts, o, hspell, rfl⟩
    · rintro ⟨ts, hts, o, hspell, rfl⟩
      exact ⟨o, (hr s o r hs).mpr ⟨ts, hts, hspell⟩, rfl⟩
  · rintro b b' ts s r hts ⟨o, hspell, -⟩
    obtain ⟨t, us, rfl, ht⟩ := ho ts o hspell
    exact head_ne_of_opens hts ht

theorem readUntil_map {b b' : List (Bytes × Object) × Bytes × Bool} (hs : s.length < inputLimit) :
    readUntil (ch 'e') (rules.mapStep read) b s = some (b', r) ↔
      ∃ ts, TakenAs ok s ts r ∧ Turns (mapTurn spell) .close b ts b' := by
  obtain ⟨int, str, rfl⟩ := hR.marked
  refine readUntil_iff_turns (hR.moves.mapStep hm) text_close ⟨trivial, hR.marks.2.2⟩ ?_ ?_ hs
  · intro b s b' r hs
    rw [mapStep_eq_some]
    constructor
    · rintro ⟨str, t, o, hstr, ho, rfl⟩
      have hlt := hR.str_moves _ _ _ hstr
      obtain ⟨n, hn, hok, rfl⟩ := (hR.str_iff _ _ _ hs).mp hstr
      obtain ⟨ts, hts, hspell⟩ := (hr t o r (hlt.trans hs)).mp ho
      refine ⟨.string n str :: ts, ?_, n, str, ts, o, rfl, hspell, rfl⟩
      have hcut := hts.cons (string n str) ⟨hn, hok⟩
      rwa [text, append_assoc] at hcut
    · rintro ⟨_, hts, n, str, us, o, rfl, hspell, rfl⟩
      obtain ⟨m, hs', ⟨hn, hok⟩, hm₂⟩ := hts.uncons
      rw [text, append_assoc] at hs'
      have hstr := (hR.str_iff _ _ _ hs).mpr ⟨n, hn, hok, hs'⟩
      have hlt := hR.str_moves _ _ _ hstr
      exact ⟨str, m, o, hstr, (hr m o r (hlt.trans hs)).mpr ⟨us, hm₂, hspell⟩, rfl⟩
  · rintro b b' ts s r hts ⟨n, str, us, o, rfl, -, -⟩
    exact head_ne_of_opens hts (by simp)

end Loops

inductive Matches (ok : Lexeme → Prop) : Option (Reader Object) → Option (List Lexeme → Object → Prop) → Prop
  | none : Matches ok none none
  | some {read : Reader Object} {spell : List Lexeme → Object → Prop} (hm : read.Moves) (hr : Reads ok read spell)
    (ho : Opens spell) : Matches ok (some read) (some spell)

variable {inner : Option (Reader Object)} {spelled : Option (List Lexeme → Object → Prop)}

theorem opens_spellsItem : Opens (SpellsItem spelled) := by
  intro ts o h
  cases h with
  | integer | string | list | map => exact ⟨_, _, rfl, nofun⟩

variable (hR : rules.Takes ok)
include hR

theorem readItem_sound (hi : Matches ok inner spelled) (hs : s.length < inputLimit)
    (h : rules.readItem inner s = some (o, r)) : ∃ ts, TakenAs ok s ts r ∧ SpellsItem spelled ts o := by
  obtain ⟨int, str, rfl⟩ := hR.marked
  rcases readItem_cases h with ⟨t, v, rfl, hv, rfl⟩ | ⟨read, l, u, t, rfl, rfl, hloop, rfl⟩ |
    ⟨read, m, prev, u, t, rfl, rfl, hloop, rfl⟩ | ⟨c, t, str, rfl, hc, hstr, rfl⟩
  · obtain ⟨n, hn, hok, rfl, rfl⟩ := (hR.int_iff t v r).mp hv
    refine ⟨[.integer n], ?_, .integer n⟩
    have hcut : TakenAs ok _ _ r := .single (integer n) ⟨hn, hok⟩
    rwa [text, cons_append, append_assoc] at hcut
  · cases hi with
    | some hm hr ho =>
      obtain ⟨ts, hts, hturns⟩ := (readUntil_list hR hm hr ho ((Nat.lt_succ_self _).trans hs)).mp hloop
      exact ⟨.list :: ts, hts.cons Lexeme.list ⟨trivial, hR.marks.1⟩, .list rfl hturns⟩
  · cases hi with
    | some hm hr ho =>
      obtain ⟨ts, hts, hturns⟩ := (readUntil_map hR hm hr ((Nat.lt_succ_self _).trans hs)).mp hloop
      exact ⟨.map :: ts, hts.cons Lexeme.map ⟨trivial, hR.marks.2.1⟩, .map rfl hturns⟩
  · obtain ⟨n, hn, hok, heq⟩ := (hR.str_iff _ _ _ hs).mp hstr
    refine ⟨[.string n str], ?_, .string n str ?_⟩
    · have hcut : TakenAs ok _ _ r := .single (string n str) ⟨hn, hok⟩
      rw [text, append_assoc] at hcut
      rwa [heq]
    · exact Numeral.plain_of_head hn.1 Numeral.ends_colon hc heq.symm

theorem readItem_complete (hi : Matches ok inner spelled) (hs : s.length < inputLimit)
    {ts : List Lexeme} (hts : TakenAs ok s ts r) (h : SpellsItem spelled ts o) :
    rules.readItem inner s = some (o, r) := by
  obtain ⟨int, str, rfl⟩ := hR.marked
  cases h with
  | integer n =>
    obtain ⟨m, rfl, ⟨hn, hok⟩, hm⟩ := hts.uncons
    obtain rfl : m = r := hm.2
    have hint := (hR.int_iff (n.text ++ ch 'e' :: m) _ m).mpr ⟨n, hn, hok, rfl, rfl⟩
    rw [text, cons_append, append_assoc, readItem_i]
    exact congrArg (Option.map _) hint
  | string n str hp =>
    obtain ⟨m, hs', ⟨hn, hok⟩, hm⟩ := hts.uncons
    obtain rfl : m = r := hm.2
    rw [text, append_assoc] at hs'
    have hstr := (hR.str_iff s str m hs).mpr ⟨n, hn, hok, hs'⟩
    obtain ⟨c, t, hct, hc⟩ := Numeral.head_of_plain hn.1 hp
    rw [hct, cons_append] at hs'
    rw [hs'] at hstr ⊢
    rw [readItem_digit hc, hstr]
    rfl
  | list hinner hturns =>
    obtain ⟨m, rfl, -, hm⟩ := hts.uncons
    subst hinner
    cases hi with
    | some hmoves hr ho =>
      have hlen : m.length < inputLimit := (Nat.lt_succ_self _).trans hs
      exact readItem_list.mpr ⟨_, _, _, rfl, (readUntil_list hR hmoves hr ho hlen).mpr ⟨_, hm, hturns⟩, rfl⟩
  | map hinner hturns =>
    obtain ⟨m, rfl, -, hm⟩ := hts.uncons
    subst hinner
    cases hi with
    | some hmoves hr ho =>
      have hlen : m.length < inputLimit := (Nat.lt_succ_self _).trans hs
      exact readItem_map.mpr ⟨_, _, _, _, rfl, (readUntil_map hR hmoves hr hlen).mpr ⟨_, hm, hturns⟩, rfl⟩

theorem readLevels_iff (n : ℕ) (hs : s.length < inputLimit) :
    rules.readLevels n s = some (o, r) ↔ ∃ ts, TakenAs ok s ts r ∧ Spells n ts o := by
  have hlevels (n : ℕ) : Reads ok (rules.readLevels n) (Spells n) := by
    have hitem {inner : Option (Reader Object)} {spelled : Option (List Lexeme → Object → Prop)}
        (hi : Matches ok inner spelled) : Reads ok (rules.readItem inner) (SpellsItem spelled) := by
      intro s o r hs
      constructor
      · exact readItem_sound hR hi hs
      · rintro ⟨ts, hts, h⟩
        exact readItem_complete hR hi hs hts h
    induction n with
    | zero => exact hitem .none
    | succ n ih =>
      apply hitem
      apply Matches.some (hR.moves.readLevels n) ih
      cases n <;> exact opens_spellsItem
  exact hlevels n s o r hs

end Rules

end

end LibTorrent
