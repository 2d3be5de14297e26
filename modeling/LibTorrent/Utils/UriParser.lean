import LibTorrent.Lib.Decimal

namespace LibTorrent

open Lib.Decimal List

/-- No value for the `-1` of a character that is not a hex digit. -/
def hexToValueOrError (c : UInt8) : Option UInt8 :=
  if ch '0' ≤ c ∧ c ≤ ch '9' then some (c - ch '0')
  else if ch 'A' ≤ c ∧ c ≤ ch 'F' then some (10 + c - ch 'A')
  else if ch 'a' ≤ c ∧ c ≤ ch 'f' then some (10 + c - ch 'a')
  else none

def hexDigit (value : UInt8) : UInt8 := if value < 10 then ch '0' + value else ch 'A' + (value - 10)

def valueToHex0 (value : UInt8) : UInt8 := hexDigit (value &&& 0x0f)

def valueToHex1 (value : UInt8) : UInt8 := hexDigit ((value >>> 4) &&& 0x0f)

/-- The loop of `transform_from_hex`, with the room that is left in the destination. It returns the distance from the
start of the destination to the end, and the bytes written. -/
def fromHexLoop : Bytes → ℕ → Bytes → ℕ × Bytes
  | [], _, dst => (dst.length, dst)
  | _ :: _, 0, dst => (0, dst)
  | [_], _ + 1, dst => (dst.length, dst)
  | c :: c' :: src, room + 1, dst =>
    match hexToValueOrError c, hexToValueOrError c' with
    | some high, some low => fromHexLoop src room (dst ++ [(high <<< 4) + low])
    | _, _ => (0, dst)

def transformFromHex (src : Bytes) (size : ℕ) : ℕ × Bytes := fromHexLoop src size []

def transformToHex (src : Bytes) (size : ℕ) : Except String Bytes :=
  if src.length * 2 ≠ size then .error "transform_to_hex() incorrect destination size"
  else .ok (src.flatMap fun value ↦ [valueToHex1 value, valueToHex0 value])

def isHex (c : UInt8) : Bool := (hexToValueOrError c).isSome

/-- The bytes that pairs of hex digits stand for. -/
def hexBytes : Bytes → Bytes
  | c :: c' :: src => (16 * (hexToValueOrError c).getD 0 + (hexToValueOrError c').getD 0) :: hexBytes src
  | _ => []

structure DecodesHex (src : Bytes) (size : ℕ) : Prop where
  accepts : (transformFromHex src size).1 ≠ 0 ↔ src ≠ [] ∧ Even src.length ∧ src.all isHex ∧ src.length ≤ 2 * size
  value : (transformFromHex src size).1 ≠ 0 → transformFromHex src size = (src.length / 2, hexBytes src)

/-- The characters in pairs are hex digits, and there is room for all. -/
def PairsFit (src : Bytes) (room : ℕ) : Prop := (src.take (src.length / 2 * 2)).all isHex ∧ src.length ≤ 2 * room

theorem forall_byte {P : UInt8 → Prop} (h : ∀ n < 256, P (UInt8.ofNat n)) (c : UInt8) : P c := by
  simpa using h c.toNat c.toNat_lt

theorem shift_eq : ∀ v : UInt8, v <<< 4 = 16 * v := forall_byte (by decide +kernel)

theorem hexToValueOrError_hex : ∀ v, hexToValueOrError (valueToHex1 v) = some (v >>> 4) ∧
    hexToValueOrError (valueToHex0 v) = some (v &&& 0x0f) ∧ ((v >>> 4) <<< 4) + (v &&& 0x0f) = v :=
  forall_byte (by decide +kernel)

theorem pairsFit_cons {c c' : UInt8} {src : Bytes} {room : ℕ} :
    PairsFit (c :: c' :: src) (room + 1) ↔ isHex c ∧ isHex c' ∧ PairsFit src room := by
  have hlen : (c :: c' :: src).length / 2 * 2 = src.length / 2 * 2 + 2 := by
    simp only [length_cons]
    omega
  rw [PairsFit, hlen, PairsFit]
  simp only [take_succ_cons, all_cons, Bool.and_eq_true, and_assoc, length_cons]
  refine and_congr_right fun _ ↦ and_congr_right fun _ ↦ and_congr_right fun _ ↦ ?_
  omega

theorem fromHexLoop_spec (src : Bytes) (room : ℕ) (dst : Bytes) :
    (PairsFit src room → fromHexLoop src room dst = (dst.length + src.length / 2, dst ++ hexBytes src)) ∧
      (¬ PairsFit src room → (fromHexLoop src room dst).1 = 0) := by
  fun_induction fromHexLoop src room dst with
  | case1 | case3 => exact ⟨fun _ ↦ by simp [hexBytes], fun h ↦ absurd ⟨by simp, by grind⟩ h⟩
  | case2 => exact ⟨fun h ↦ absurd h.2 (by simp), fun _ ↦ rfl⟩
  | case4 c c' src room dst high low hlow hhigh ih =>
    simp only [pairsFit_cons, isHex, hhigh, hlow, Option.isSome_some, true_and]
    refine ⟨fun h ↦ ?_, ih.2⟩
    rw [ih.1 h, hexBytes, hhigh, hlow, shift_eq]
    simp only [length_append, length_nil, length_cons, append_assoc, singleton_append, Option.getD_some,
      Prod.mk.injEq, and_true]
    omega
  | case5 c c' src room dst hnone =>
    refine ⟨fun h ↦ ?_, fun _ ↦ rfl⟩
    obtain ⟨hc, hc', -⟩ := pairsFit_cons.mp h
    obtain ⟨high, hhigh⟩ := Option.isSome_iff_exists.mp hc
    obtain ⟨low, hlow⟩ := Option.isSome_iff_exists.mp hc'
    exact (hnone high low hhigh hlow).elim

theorem transformFromHex_transformToHex (x : Bytes) :
    (transformToHex x (2 * x.length)).map (transformFromHex · x.length) = .ok (x.length, x) := by
  have hloop (x dst : Bytes) : fromHexLoop (x.flatMap fun value ↦ [valueToHex1 value, valueToHex0 value]) x.length dst =
      (dst.length + x.length, dst ++ x) := by
    induction x generalizing dst with
    | nil => simp [fromHexLoop]
    | cons v x ih =>
      obtain ⟨h₁, h₀, hv⟩ := hexToValueOrError_hex v
      simp [fromHexLoop, h₁, h₀, hv, ih, Nat.add_right_comm, ← Nat.add_assoc]
  rw [transformToHex, if_neg (by simp [Nat.mul_comm]), Except.map, transformFromHex, hloop]
  simp

/-- Hex strings are read back, and a source is decoded as it should be unless a character without its pair is left over. -/
theorem transformHex_iff (x src : Bytes) (size : ℕ) :
    ((transformToHex x (2 * x.length)).map (transformFromHex · x.length) = .ok (x.length, x) ∧ DecodesHex src size) ↔
      ¬ (Odd src.length ∧ 3 ≤ src.length ∧ PairsFit src size) := by
  rw [and_iff_right (transformFromHex_transformToHex x)]
  have hyes := (fromHexLoop_spec src size []).1
  have hno := (fromHexLoop_spec src size []).2
  rw [length_nil, Nat.zero_add, nil_append, ← transformFromHex] at hyes
  rw [← transformFromHex] at hno
  have hsome : (transformFromHex src size).1 ≠ 0 ↔ PairsFit src size ∧ src.length / 2 ≠ 0 := by
    by_cases hfit : PairsFit src size
    · simp [hyes hfit, hfit]
    · simp [hno hfit, hfit]
  rcases Nat.even_or_odd' src.length with ⟨k, hk | hk⟩
  · have htake : src.take (src.length / 2 * 2) = src := take_of_length_le (by omega)
    refine iff_of_true ⟨?_, fun h ↦ hyes (hsome.mp h).1⟩ fun h ↦ Nat.not_even_iff_odd.mpr h.1 ⟨k, by omega⟩
    have hnil : src.length / 2 ≠ 0 ↔ src ≠ [] := by
      rw [ne_eq, ne_eq, ← length_eq_zero_iff]
      omega
    rw [hsome, PairsFit, htake, hnil, and_comm, and_iff_right (show Even src.length from ⟨k, by omega⟩)]
  have hodd : ¬ Even src.length := Nat.not_even_iff_odd.mpr ⟨k, hk⟩
  have hlarge : src.length / 2 ≠ 0 ↔ 3 ≤ src.length := by omega
  rw [and_iff_right ⟨k, hk⟩, ← hlarge, and_comm, ← hsome]
  refine ⟨fun h hne ↦ hodd (h.accepts.mp hne).2.1, fun h ↦ ⟨?_, fun hne ↦ absurd hne h⟩⟩
  exact iff_of_false h fun hc ↦ hodd hc.2.1

/-- Three characters, of which the last one is not even a digit. -/
theorem transformFromHex_odd : ¬ DecodesHex [ch '4', ch '1', ch 'z'] 20 :=
  fun h ↦ absurd (h.accepts.mp (by decide)).2.1 (by decide)

/-- Letters, digits and the given marks. -/
def isUriChar (marks : String) (c : UInt8) : Bool :=
  ch 'A' ≤ c ∧ c ≤ ch 'Z' ∨ ch 'a' ≤ c ∧ c ≤ ch 'z' ∨ ch '0' ≤ c ∧ c ≤ ch '9' ∨ c ∈ ascii marks

def isUnreservedUriChar : UInt8 → Bool := isUriChar "-_.~"

def isValidUriQueryChar : UInt8 → Bool := isUriChar "-_.~:&=/%"

def isUnreservedUriQueryChar : UInt8 → Bool := isUriChar "-_.~:=/%"

inductive UriStatus
  | empty | valid | invalid

structure UriState where
  state : UriStatus := .empty
  uri : Bytes := []
  scheme : Bytes := []
  resource : Bytes := []
  query : Bytes := []
  fragment : Bytes := []

structure UriQueryState where
  state : UriStatus := .empty
  query : Bytes := []
  elements : List Bytes := []

/-- What follows a part: nothing, the mark and the rest, or another character. -/
inductive UriNext
  | done
  | found (rest : Bytes)
  | invalid (c : UInt8)

def uriStringCopyUntil (check : UInt8 → Bool) (mark : Char) (s : Bytes) : Bytes × UriNext :=
  (s.takeWhile check, match s.dropWhile check with
    | [] => .done
    | c :: rest => if c = ch mark then .found rest else .invalid c)

def uriParseThrowError (error : String) (c : UInt8) : Option Bytes := some (ascii error ++ [valueToHex1 c, valueToHex0 c])

def UriState.finish (s : UriState) (error : String) : UriNext → UriState × Option Bytes
  | .invalid c => (s, uriParseThrowError error c)
  | _ => ({ s with state := .valid }, none)

/-- The state that is left, with the error if one is thrown. -/
def uriParseStr (uri : Bytes) (s : UriState) : UriState × Option Bytes :=
  match s.state with
  | .empty =>
    let s := { s with uri := uri, state := .invalid }
    match uriStringCopyUntil isUnreservedUriChar ':' uri with
    | (scheme, .found uri) =>
      match uriStringCopyUntil isUnreservedUriChar '?' uri with
      | (resource, .found uri) =>
        match uriStringCopyUntil isValidUriQueryChar '#' uri with
        | (query, next) => { s with scheme := scheme, resource := resource, query := query }.finish
            "could not find '#' after query, found character 0x" next
      | (resource, next) => { s with scheme := scheme, resource := resource }.finish
          "could not find '?' after resource, found character 0x" next
    | (scheme, next) => { s with scheme := scheme }.finish "could not find ':' after scheme, found character 0x" next
  | _ => (s, some (ascii "uri_state.state is not uri_state::state_empty"))

/-- The loop of `uri_parse_query_str`, with the character at which it throws; the fuel is the length of the query. -/
def uriQueryLoop : ℕ → Bytes → List Bytes → List Bytes × Option UInt8
  | 0, _, elements => (elements, none)
  | fuel + 1, query, elements =>
    if query = [] then (elements, none)
    else match uriStringCopyUntil isUnreservedUriQueryChar '&' query with
      | (_, .invalid c) => (elements, some c)
      | (element, .found query) => uriQueryLoop fuel query (elements ++ [element])
      | (element, .done) => (elements ++ [element], none)

def uriParseQueryStr (query : Bytes) (s : UriQueryState) : UriQueryState × Option Bytes :=
  match s.state, uriQueryLoop query.length query s.elements with
  | .empty, (elements, none) => (⟨.valid, query, elements⟩, none)
  | .empty, (elements, some c) =>
    (⟨.invalid, query, elements⟩, uriParseThrowError "query element contains invalid character 0x" c)
  | _, _ => (s, some (ascii "uri_query_state.state is not uri_query_state::state_empty"))

/-- Nothing of a valid input is lost in the parts. -/
def UriState.Lossless (s : UriState) : Prop :=
  s.state = .valid → s.uri = s.scheme ∨ s.uri = s.scheme ++ ch ':' :: s.resource ∨
    s.uri = s.scheme ++ ch ':' :: (s.resource ++ ch '?' :: s.query) ∨
    s.uri = s.scheme ++ ch ':' :: (s.resource ++ ch '?' :: (s.query ++ ch '#' :: s.fragment))

def UriQueryState.Lossless (s : UriQueryState) : Prop := s.state = .valid → [ch '&'].intercalate s.elements = s.query

/-- The input has all four parts, and the last one is not empty. -/
structure HasFragment (uri scheme resource query fragment : Bytes) : Prop where
  eq : uri = scheme ++ ch ':' :: (resource ++ ch '?' :: (query ++ ch '#' :: fragment))
  scheme : ∀ c ∈ scheme, isUnreservedUriChar c
  resource : ∀ c ∈ resource, isUnreservedUriChar c
  query : ∀ c ∈ query, isValidUriQueryChar c
  fragment : fragment ≠ []

section

variable {check : UInt8 → Bool} {mark : Char} {s part rest : Bytes} {next : UriNext}

theorem uriStringCopyUntil_append (hpart : ∀ c ∈ part, check c) (hmark : check (ch mark) = false) :
    uriStringCopyUntil check mark (part ++ ch mark :: rest) = (part, .found rest) := by
  simp [uriStringCopyUntil, takeWhile_append_of_pos hpart, dropWhile_append_of_pos hpart, hmark]

theorem uriStringCopyUntil_spec (h : uriStringCopyUntil check mark s = (part, next)) : (∀ c ∈ part, check c) ∧
    (next = .done → s = part) ∧ ∀ rest, next = .found rest → s = part ++ ch mark :: rest := by
  obtain ⟨rfl, rfl⟩ := Prod.mk.inj h
  have hs := (takeWhile_append_dropWhile (p := check) (l := s)).symm
  refine ⟨all_eq_true.mp all_takeWhile, ?_⟩
  rcases hd : s.dropWhile check with _ | ⟨c, rest⟩
  · simpa [hd] using hs
  by_cases hc : c = ch mark
  · simpa [hc, hd] using hs
  · simp [hc]

theorem uriStringCopyUntil_invalid {c : UInt8} (h : uriStringCopyUntil check mark s = (part, .invalid c)) :
    c ∈ s ∧ ¬ (check c ∨ c = ch mark) := by
  have hnext := (Prod.mk.inj h).2
  rcases hd : s.dropWhile check with _ | ⟨d, rest⟩
  · simp [hd] at hnext
  simp only [hd] at hnext
  split_ifs at hnext with hc
  obtain rfl := UriNext.invalid.inj hnext
  have hcheck := head_dropWhile_not check (l := s) (by simp [hd])
  refine ⟨(dropWhile_suffix check).subset (hd ▸ mem_cons_self), ?_⟩
  simpa [hd, hc] using hcheck

end

theorem lossless_uriParseStr (uri : Bytes) : (uriParseStr uri {}).1.Lossless ↔
    ¬ ∃ scheme resource query fragment, HasFragment uri scheme resource query fragment := by
  constructor
  · rintro h ⟨scheme, resource, query, fragment, rfl, hs, hr, hq, hf⟩
    rw [uriParseStr, uriStringCopyUntil_append hs (by decide)] at h
    simp only [uriStringCopyUntil_append hr (by decide : isUnreservedUriChar (ch '?') = false),
      uriStringCopyUntil_append hq (by decide : isValidUriQueryChar (ch '#') = false)] at h
    have hlen := length_pos_iff.mpr hf
    obtain h | h | h | h := h rfl
    all_goals
      have := congrArg length h
      simp only [UriState.finish, length_append, length_cons, length_nil] at this
      omega
  · intro hno
    rw [uriParseStr]
    rcases h₁ : uriStringCopyUntil isUnreservedUriChar ':' uri with ⟨scheme, _ | uri | _⟩
    · exact fun _ ↦ .inl ((uriStringCopyUntil_spec h₁).2.1 rfl)
    · obtain ⟨hs, -, h⟩ := uriStringCopyUntil_spec h₁
      cases h _ rfl
      rcases h₂ : uriStringCopyUntil isUnreservedUriChar '?' uri with ⟨resource, _ | uri | _⟩ <;> simp only [h₂]
      · exact fun _ ↦ .inr (.inl (congrArg (_ ++ _ :: ·) ((uriStringCopyUntil_spec h₂).2.1 rfl)))
      · obtain ⟨hr, -, h⟩ := uriStringCopyUntil_spec h₂
        cases h _ rfl
        rcases h₃ : uriStringCopyUntil isValidUriQueryChar '#' uri with ⟨query, _ | fragment | _⟩
        · cases (uriStringCopyUntil_spec h₃).2.1 rfl
          exact fun _ ↦ .inr (.inr (.inl rfl))
        · obtain ⟨hq, -, h⟩ := uriStringCopyUntil_spec h₃
          cases h _ rfl
          rcases fragment with _ | _
          · exact fun _ ↦ .inr (.inr (.inr rfl))
          · exact absurd ⟨_, _, _, _, rfl, hs, hr, hq, nofun⟩ hno
        · exact nofun
      · exact nofun
    · exact nofun

/-- The elements of an accepted query make it up, except for a separator that is its last character. -/
theorem uriQueryLoop_spec (fuel : ℕ) (query : Bytes) (elements : List Bytes) (hfuel : query.length ≤ fuel)
    (h : (uriQueryLoop fuel query elements).2 = none) :
    ∃ parts, (uriQueryLoop fuel query elements).1 = elements ++ parts ∧ (parts = [] ↔ query = []) ∧
      query = [ch '&'].intercalate parts ++ if query.getLast? = some (ch '&') then [ch '&'] else [] := by
  fun_induction uriQueryLoop fuel query elements with
  | case1 query =>
    obtain rfl := length_eq_zero_iff.mp (Nat.le_zero.mp hfuel)
    simp
  | case2 => simp
  | case3 => exact nomatch h
  | case4 fuel query elements hne element rest hrest ih =>
    obtain ⟨hok, -, hq⟩ := uriStringCopyUntil_spec hrest
    cases hq _ rfl
    obtain ⟨parts, hl, hnil, hq⟩ := ih (by simp at hfuel; omega) h
    refine ⟨element :: parts, by simp [hl], by simp, ?_⟩
    rcases rest with _ | ⟨c, rest⟩
    · simp [hnil.mpr rfl]
    rcases parts with _ | ⟨part, parts⟩
    · simp at hnil
    have hlast : (element ++ ch '&' :: c :: rest).getLast? = (c :: rest).getLast? := by
      simp [getLast?_append, getLast?_cons]
    rw [hlast, intercalate_cons_cons, append_assoc, append_assoc, singleton_append, ← hq]
  | case5 fuel query elements hne element hdone =>
    obtain ⟨hok, hq, -⟩ := uriStringCopyUntil_spec hdone
    cases hq rfl
    have hlast : query.getLast? ≠ some (ch '&') := fun hl ↦ absurd (hok _ (mem_of_getLast? hl)) (by decide)
    exact ⟨[query], rfl, by simp [hne], by simp [hlast]⟩

/-- A query is accepted if it has query characters and separators only. -/
theorem uriQueryLoop_none_iff (fuel : ℕ) (query : Bytes) (elements : List Bytes) (hfuel : query.length ≤ fuel) :
    (uriQueryLoop fuel query elements).2 = none ↔ ∀ c ∈ query, isUnreservedUriQueryChar c ∨ c = ch '&' := by
  fun_induction uriQueryLoop fuel query elements with
  | case1 query =>
    obtain rfl := length_eq_zero_iff.mp (Nat.le_zero.mp hfuel)
    simp
  | case2 => simp
  | case3 fuel query elements hne _ c hinvalid =>
    obtain ⟨hmem, hc⟩ := uriStringCopyUntil_invalid hinvalid
    exact iff_of_false nofun fun hall ↦ hc (hall c hmem)
  | case4 fuel query elements hne element rest hrest ih =>
    obtain ⟨hok, -, hq⟩ := uriStringCopyUntil_spec hrest
    cases hq _ rfl
    rw [ih (by simp at hfuel; omega), forall_mem_append, forall_mem_cons]
    exact ⟨fun hrest ↦ ⟨fun c hc ↦ .inl (hok c hc), .inr rfl, hrest⟩, fun hall ↦ hall.2.2⟩
  | case5 fuel query elements hne element hdone =>
    obtain ⟨hok, hq, -⟩ := uriStringCopyUntil_spec hdone
    cases hq rfl
    exact iff_of_true rfl fun c hc ↦ .inl (hok c hc)

theorem uriParse_lossless_iff (uri query : Bytes) :
    ((uriParseStr uri {}).1.Lossless ∧ (uriParseQueryStr query {}).1.Lossless) ↔
      (¬ ∃ scheme resource query fragment, HasFragment uri scheme resource query fragment) ∧
        ((∀ c ∈ query, isUnreservedUriQueryChar c ∨ c = ch '&') → query.getLast? ≠ some (ch '&')) := by
  refine and_congr (lossless_uriParseStr uri) ?_
  rw [← uriQueryLoop_none_iff query.length query [] le_rfl]
  have hspec := uriQueryLoop_spec query.length query [] le_rfl
  simp only [uriParseQueryStr]
  rcases h : uriQueryLoop query.length query [] with ⟨parts, _ | c⟩
  · simp only [h, nil_append, true_implies, exists_eq_left'] at hspec
    simp only [UriQueryState.Lossless, true_implies]
    by_cases hlast : query.getLast? = some (ch '&')
    · rw [if_pos hlast] at hspec
      refine iff_of_false (fun h ↦ ?_) (· hlast)
      rw [h, self_eq_append_right] at hspec
      exact nomatch hspec.2
    · rw [if_neg hlast, append_nil] at hspec
      exact iff_of_true hspec.2.symm hlast
  · exact iff_of_true nofun nofun

/-- The fragment is not kept, and a separator at the end of a query is lost. -/
theorem uriParse_lossy : ¬ (uriParseStr (ascii "a:b?c#d") {}).1.Lossless ∧ ¬ (uriParseQueryStr (ascii "a&") {}).1.Lossless :=
  ⟨fun h ↦ absurd (h rfl) (by decide), fun h ↦ absurd (h rfl) (by decide)⟩

end LibTorrent
