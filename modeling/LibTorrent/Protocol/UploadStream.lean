import LibTorrent.Protocol.Upload

namespace LibTorrent

namespace Upload

open EncryptBuffer Lib.Decimal Lib.Keystream Lib.Outcome List Option

variable {ks : ℕ → UInt8} {chunks : UInt32 → Option Bytes} {c : Upload}

def UploadInternal (e : UploadFault) : Prop := ∃ message, e = .internal message

@[simp] theorem not_internal_closed : ¬ UploadInternal .closed := by
  rintro ⟨message, h⟩
  cases h

def unread (c : Upload) : Bytes :=
  match c.encryptBuffer with
  | none => []
  | some e => e.unread

def payload (chunks : UInt32 → Option Bytes) (c : Upload) : Bytes :=
  match c.lastCommand with
  | .piece => pieceBytes chunks c.index c.offset c.length
  | .extension => c.extensionMessage
  | .other => []

def unsent (c : Upload) : ℕ :=
  match c.state with
  | .idle => c.buffer.length
  | .msg =>
    c.buffer.length +
      match c.lastCommand with
      | .piece => c.length
      | .extension => c.extensionMessage.length
      | .other => 0
  | .writePiece => c.length
  | .writeExtension => c.extensionMessage.length - c.extensionOffset.getD 0

/-- The prepared bytes are those sent, those encrypted and waiting, and those still plain. -/
def Stream (ks : ℕ → UInt8) (c : Upload) (encrypted plain : Bytes) : Prop :=
  ∃ done, c.prepared = done ++ plain ∧ c.keyPosition = done.length ∧ c.sent ++ encrypted = crypt ks 0 done

def Servable (chunks : UInt32 → Option Bytes) (c : Upload) : Prop :=
  0 < c.length ∧ ∃ d, chunks c.index = some d ∧ c.offset + c.length ≤ d.length

def Held (c : Upload) : Prop := c.upChunk ≠ none → c.encryptBuffer ≠ none

structure Idle (ks : ℕ → UInt8) (c : Upload) : Prop where
  state_eq : c.state = .idle
  held : c.Held
  unread_eq : c.unread = []
  other : c.buffer ≠ [] → c.lastCommand = .other
  stream : Stream ks c c.buffer []

structure Queued (ks : ℕ → UInt8) (chunks : UInt32 → Option Bytes) (c : Upload) : Prop where
  state_eq : c.state = .msg
  held : c.Held
  unread_eq : c.unread = []
  busy : c.buffer ≠ []
  piece : c.lastCommand = .piece → Servable chunks c
  extension : c.lastCommand = .extension → c.extensionMessage ≠ [] ∧ c.extensionOffset = none
  stream : Stream ks c c.buffer (c.payload chunks)

structure Uploading (ks : ℕ → UInt8) (chunks : UInt32 → Option Bytes) (c : Upload) : Prop where
  state_eq : c.state = .writePiece
  held : c.Held
  buffer_eq : c.buffer = []
  loaded : c.upChunk = some c.index
  servable : Servable chunks c
  ahead : c.unread.length ≤ c.length
  stream : Stream ks c c.unread
    (pieceBytes chunks c.index (c.offset + c.unread.length) (c.length - c.unread.length))

structure Extending (ks : ℕ → UInt8) (c : Upload) : Prop where
  state_eq : c.state = .writeExtension
  held : c.Held
  unread_eq : c.unread = []
  buffer_eq : c.buffer = []
  message : c.extensionMessage ≠ []
  plain : c.extensionOffset = none → Stream ks c [] c.extensionMessage
  encrypted : ∀ o, c.extensionOffset = some o →
    o < c.extensionMessage.length ∧ Stream ks c (c.extensionMessage.drop o) []

inductive Sound (ks : ℕ → UInt8) (chunks : UInt32 → Option Bytes) (c : Upload) : Prop
  | idle (h : Idle ks c)
  | queued (h : Queued ks chunks c)
  | uploading (h : Uploading ks chunks c)
  | extending (h : Extending ks c)

theorem idle_fresh : Idle ks fresh where
  state_eq := rfl
  held h := absurd rfl h
  unread_eq := rfl
  other h := absurd rfl h
  stream := ⟨[], rfl, rfl, rfl⟩

theorem Sound.requests (h : Sound ks chunks c) (choked sendChoked : Bool) (queue : List Piece) :
    Sound ks chunks { c with choked := choked, sendChoked := sendChoked, uploadQueue := queue } := by
  cases h with
  | idle h => exact .idle ⟨h.state_eq, h.held, h.unread_eq, h.other, h.stream⟩
  | queued h => exact .queued ⟨h.state_eq, h.held, h.unread_eq, h.busy, h.piece, h.extension, h.stream⟩
  | uploading h =>
    exact .uploading ⟨h.state_eq, h.held, h.buffer_eq, h.loaded, h.servable, h.ahead, h.stream⟩
  | extending h =>
    exact .extending ⟨h.state_eq, h.held, h.unread_eq, h.buffer_eq, h.message, h.plain, h.encrypted⟩

section Bytes

variable {index : UInt32} {d : Bytes}

theorem pieceBytes_append (index : UInt32) (offset m k : ℕ) : pieceBytes chunks index offset (m + k) =
      pieceBytes chunks index offset m ++ pieceBytes chunks index (offset + m) k := by
  rw [pieceBytes, take_add, drop_drop]
  rfl

theorem length_pieceBytes (h : chunks index = some d) {offset length : ℕ} (hl : offset + length ≤ d.length) :
    (pieceBytes chunks index offset length).length = length := by
  rw [pieceBytes, h, getD_some, length_take, length_drop]
  omega

theorem servable_of_isValidPiece {p : Piece} (h : isValidPiece chunks p = true) :
    0 < p.length.toNat ∧ ∃ d, chunks p.index = some d ∧ p.offset.toNat + p.length.toNat ≤ d.length := by
  rw [isValidPiece] at h
  cases hd : chunks p.index with
  | none => simp [hd] at h
  | some d =>
    simp only [hd, decide_eq_true_eq] at h
    obtain ⟨h0, hle, hlen⟩ := h
    have hpos : p.length.toNat ≠ 0 := fun h ↦ h0 (UInt32.toNat_inj.mp h)
    have hp := p.length.toNat_lt
    rw [UInt32.le_iff_toNat_le, UInt32.toNat_add] at hle
    rw [UInt32.toNat_add] at hlen
    exact ⟨by omega, d, rfl, by omega⟩

end Bytes

variable {encrypted b plain : Bytes}

section Fill

theorem Stream.append (h : Stream ks c c.buffer []) (b : Bytes) :
    Stream ks (c.append ks b) (c.append ks b).buffer [] := by
  obtain ⟨done, hp, hk, hs⟩ := h
  refine ⟨done ++ b, ?_, ?_, ?_⟩
  · simp [Upload.append, hp]
  · simp [Upload.append, hk]
  · simp [Upload.append, crypt_append, ← hs, hk]

theorem Stream.prepare (h : Stream ks c encrypted []) (b : Bytes) :
    Stream ks { c with prepared := c.prepared ++ b } encrypted b := by
  obtain ⟨done, hp, hk, hs⟩ := h
  exact ⟨done, by simp [hp], hk, hs⟩

theorem Idle.append (h : Idle ks c) (b : Bytes) : Idle ks { c.append ks b with lastCommand := .other } where
  state_eq := h.state_eq
  held := h.held
  unread_eq := h.unread_eq
  other _ := rfl
  stream := h.stream.append b

theorem Idle.queued (h : Idle ks c) (hb : c.buffer ≠ []) : Queued ks chunks { c with state := .msg } where
  state_eq := rfl
  held := h.held
  unread_eq := h.unread_eq
  busy := hb
  piece hl := absurd ((h.other hb).symm.trans hl) nofun
  extension hl := absurd ((h.other hb).symm.trans hl) nofun
  stream := by
    have hp : payload chunks { c with state := .msg } = [] := by rw [payload, h.other hb]
    rw [hp]
    exact h.stream

theorem append_ne_nil (hb : b ≠ []) : (c.append ks b).buffer ≠ [] := by
  intro h
  have := congrArg List.length h
  simp only [Upload.append, length_append, length_crypt, length_nil] at this
  have := length_pos_iff.mpr hb
  omega

variable (h : Idle ks c)
include h

theorem Idle.receiveKeepalive : Idle ks (c.receiveKeepalive ks) := by
  rw [Upload.receiveKeepalive]
  split_ifs
  · exact h.append _
  · exact h

theorem Idle.fillChoke : Ensures UploadInternal (c.fillChoke ks) (Idle ks) := by
  refine .either ?_ h
  have ha := h.append (writeChoke c.choked)
  refine .either ?_ ⟨ha.state_eq, ha.held, ha.unread_eq, ha.other, ha.stream⟩
  have hu : c.unread = [] := h.unread_eq
  rw [unread] at hu
  dsimp only [Upload.append]
  cases he : c.encryptBuffer with
  | none => exact ⟨ha.state_eq, fun h ↦ absurd rfl h, rfl, ha.other, ha.stream⟩
  | some e =>
    -- all that was encrypted for earlier pieces is sent
    have h0 : e.remaining = 0 := by
      simpa [he, EncryptBuffer.unread, EncryptBuffer.remaining, Nat.sub_eq_zero_iff_le] using hu
    exact .ite (fun hne ↦ absurd h0 hne) fun _ ↦
      ⟨ha.state_eq, fun h ↦ absurd rfl h, rfl, ha.other, ha.stream⟩

theorem Idle.fillOther (other : Bytes) : Idle ks (c.fillOther ks other) := by
  rw [Upload.fillOther]
  split_ifs
  · exact h
  · exact h.append _

theorem Idle.writePreparePiece (p : Piece) (queue : List Piece) :
    Ensures UploadInternal (c.writePreparePiece ks chunks p queue)
      fun c ↦ Queued ks chunks { c with state := .msg } := by
  refine .ite (fun _ ↦ not_internal_closed) fun hv ↦ ?_
  have hp := servable_of_isValidPiece (by simpa using hv)
  exact ⟨rfl, h.held, h.unread_eq, append_ne_nil (by simp [writePiece, write32]), fun _ ↦ hp,
    nofun, (h.stream.append (writePiece p)).prepare _⟩

theorem Idle.writePrepareExtension (id : UInt8) {message : Bytes} (hm : message ≠ []) :
    Queued ks chunks { c.writePrepareExtension ks id message with state := .msg } where
  state_eq := rfl
  held := h.held
  unread_eq := h.unread_eq
  busy := append_ne_nil (by simp [writeExtension, write32])
  piece := nofun
  extension _ := ⟨hm, rfl⟩
  stream := (h.stream.append (writeExtension id message)).prepare message

theorem Idle.fillLast (id : UInt8) (message : Bytes) (skip : ℕ) :
    Ensures UploadInternal (c.fillLast ks chunks id message skip)
      fun c ↦ Idle ks c ∨ c.buffer ≠ [] ∧ Queued ks chunks { c with state := .msg } := by
  refine .ite (fun hm ↦ ?_) fun _ ↦ .either ?_ (.inl h)
  · have hq : Queued ks chunks _ := h.writePrepareExtension id hm.1
    exact .inr ⟨hq.busy, hq⟩
  cases c.uploadQueue.drop skip with
  | nil => exact .inl ⟨h.state_eq, h.held, h.unread_eq, h.other, h.stream⟩
  | cons p queue => exact (h.writePreparePiece p queue).mono fun c hq ↦ .inr ⟨hq.busy, hq⟩

theorem Idle.fillWriteBuffer (other : Bytes) (id : UInt8) (message : Bytes) (skip : ℕ) :
    Ensures UploadInternal (c.fillWriteBuffer ks chunks other id message skip) (Sound ks chunks) := by
  refine h.fillChoke.bind fun c₁ h₁ ↦ ?_
  refine ((h₁.fillOther other).fillLast id message skip).bind fun c₂ h₂ ↦ ?_
  split_ifs with hb
  · obtain h₂ | ⟨hb', -⟩ := h₂
    · exact .idle h₂
    · exact absurd hb hb'
  obtain h₂ | ⟨-, h₂⟩ := h₂
  · exact .queued (h₂.queued hb)
  · exact .queued h₂

end Fill

section Write

theorem Stream.send {a : Bytes} (h : Stream ks c (a ++ b) plain) :
    Stream ks { c with sent := c.sent ++ a } b plain := by
  obtain ⟨done, hp, hk, hs⟩ := h
  exact ⟨done, hp, hk, by simpa using hs⟩

theorem Stream.encrypt (h : Stream ks c encrypted (b ++ plain)) :
    Stream ks { c with keyPosition := c.keyPosition + b.length } (encrypted ++ crypt ks c.keyPosition b) plain := by
  obtain ⟨done, hp, hk, hs⟩ := h
  refine ⟨done ++ b, by simp [hp], by simp [hk], ?_⟩
  rw [crypt_append, ← hs, Nat.zero_add, hk, append_assoc]

theorem ensures_loadUpChunk (hu : c.unread = []) (hh : c.Held) (hb : c.buffer = []) (hv : Servable chunks c)
    (hs : Stream ks c [] (pieceBytes chunks c.index c.offset c.length)) :
    Ensures UploadInternal (c.loadUpChunk chunks) fun c ↦ Uploading ks chunks { c with state := .writePiece } := by
  have hs' : Stream ks c c.unread
      (pieceBytes chunks c.index (c.offset + c.unread.length) (c.length - c.unread.length)) := by
    simpa [hu] using hs
  refine .ite (fun hl ↦ ?_) fun _ ↦ .either not_internal_closed ?_
  · exact ⟨rfl, hh, hb, hl, hv, by simp [show unread { c with state := .writePiece } = [] from hu], hs'⟩
  have hn : unread { c with
      state := .writePiece
      upChunk := some c.index
      encryptBuffer := some (c.encryptBuffer.getD .reset) } = [] := by
    rw [unread] at hu ⊢
    cases he : c.encryptBuffer with
    | none => rfl
    | some e => simpa [he] using hu
  refine ⟨rfl, fun _ ↦ some_ne_none _, hb, rfl, hv, by simp [hn], ?_⟩
  rw [hn]
  exact hs

theorem Queued.writeBuffer (h : Queued ks chunks c) (n : ℕ) :
    Ensures UploadInternal (c.writeBuffer chunks n) (Sound ks chunks) := by
  have hs : Stream ks { c with sent := c.sent ++ c.buffer.take n, buffer := c.buffer.drop n } (c.buffer.drop n)
      (c.payload chunks) := by
    apply Stream.send
    rw [take_append_drop]
    exact h.stream
  refine .ite (fun hb ↦ ?_) fun hb ↦ ?_
  · exact .queued ⟨h.state_eq, h.held, h.unread_eq, hb, h.piece, h.extension, hs⟩
  have hb : c.buffer.drop n = [] := not_not.mp hb
  rw [hb] at hs ⊢
  cases hl : c.lastCommand with
  | piece =>
    have hp : c.payload chunks = pieceBytes chunks c.index c.offset c.length := by rw [payload, hl]
    rw [hp, hl] at hs
    have hload := ensures_loadUpChunk (c := { c with
      sent := c.sent ++ c.buffer.take n, buffer := [], lastCommand := .piece }) h.unread_eq h.held rfl (h.piece hl) hs
    exact hload.bind fun _ h ↦ Sound.uploading h
  | extension =>
    have hp : c.payload chunks = c.extensionMessage := by rw [payload, hl]
    rw [hp, hl] at hs
    obtain ⟨hm, ho⟩ := h.extension hl
    exact .extending ⟨rfl, h.held, h.unread_eq, rfl, hm, fun _ ↦ hs, fun o ho' ↦ absurd (ho.symm.trans ho') nofun⟩
  | other =>
    have hp : c.payload chunks = [] := by rw [payload, hl]
    rw [hp, hl] at hs
    exact .idle ⟨rfl, h.held, h.unread_eq, fun hn ↦ absurd rfl hn, hs⟩

theorem length_unread (e : EncryptBuffer) : e.unread.length = e.remaining := length_drop

variable {e : EncryptBuffer} {k o : ℕ}

section

variable (h : Uploading ks chunks c)
include h

theorem Uploading.encrypt (he : e.unread = c.unread)
    (hpos : e.position ≤ e.data.length) (hk : c.unread.length + k ≤ c.length) :
    let b := pieceBytes chunks c.index (c.offset + c.unread.length) k
    let e' : EncryptBuffer := { e with data := e.data ++ crypt ks c.keyPosition b }
    e'.remaining = c.unread.length + k ∧
      Uploading ks chunks { c with encryptBuffer := some e', keyPosition := c.keyPosition + k } := by
  intro b e'
  obtain ⟨hlen, d, hd, hle⟩ := h.servable
  have hb : b.length = k := length_pieceBytes hd (by omega)
  have hunread : e'.unread = c.unread ++ crypt ks c.keyPosition b := by
    rw [← he, EncryptBuffer.unread, drop_append_of_le_length hpos]
    rfl
  have hl : e'.unread.length = c.unread.length + k := by rw [hunread, length_append, length_crypt, hb]
  have hs := h.stream
  rw [show c.length - c.unread.length = k + (c.length - (c.unread.length + k)) by omega, pieceBytes_append,
    Nat.add_assoc] at hs
  refine ⟨(length_unread e').symm.trans hl, h.state_eq, fun _ ↦ some_ne_none _, h.buffer_eq, h.loaded,
    h.servable, ?_, ?_⟩
  · exact hl.trans_le hk
  have := hs.encrypt
  change Stream ks _ e'.unread (pieceBytes chunks c.index (c.offset + e'.unread.length) (c.length - e'.unread.length))
  rw [hl, hunread, ← hb]
  exact hb.symm ▸ this

theorem Uploading.toBuffer (hk : o + k ≤ c.length) : toBuffer ((c.upChunk.bind chunks).getD []) (c.offset + o) k =
      .ok (pieceBytes chunks c.index (c.offset + o) k) := by
  obtain ⟨-, d, hd, hle⟩ := h.servable
  rw [h.loaded, bind_some, Upload.toBuffer, if_neg, pieceBytes]
  rw [hd, getD_some]
  omega

theorem Uploading.upChunkEncrypt {quota : ℕ} (h0 : 0 < quota) (hq : quota ≤ c.length) :
    Ensures UploadInternal (c.upChunkEncrypt ks chunks quota)
      fun r ↦ 0 < r.1 ∧ r.1 ≤ r.2.unread.length ∧ Uploading ks chunks r.2 := by
  rw [Upload.upChunkEncrypt]
  cases he : c.encryptBuffer with
  | none => exact absurd he (h.held (by simp [h.loaded]))
  | some e =>
    have hu : e.unread = c.unread := by rw [unread, he]
    have hlen : c.unread.length = e.remaining := by rw [← hu, length_unread]
    have hsub : e.remaining = e.data.length - e.position := rfl
    refine .ite (fun hr ↦ ⟨h0, hr.trans hlen.ge, h⟩) fun hr ↦ ?_
    dsimp only
    split_ifs with hz
    · -- nothing is waiting, and the buffer is used from its start again
      have hu' : reset.unread = c.unread := by
        rw [length_eq_zero_iff.mp (hlen.trans hz)]
        rfl
      have hk : c.unread.length + min quota reserved ≤ c.length := by omega
      obtain ⟨hr', h'⟩ := h.encrypt hu' le_rfl hk
      have hres : reserved = 16384 := rfl
      rw [hlen, hz] at hr' h' hk
      rw [show reset.remaining = 0 from rfl, h.toBuffer hk]
      exact ⟨by dsimp only; omega, (length_unread _).ge, h'⟩
    · have hk : c.unread.length + min (quota - e.remaining) e.reservedLeft ≤ c.length := by omega
      obtain ⟨hr', h'⟩ := h.encrypt hu (by omega) hk
      rw [hlen] at hr' h' hk
      rw [h.toBuffer hk]
      exact ⟨by dsimp only; omega, (length_unread _).ge, h'⟩

theorem Uploading.send (he : c.encryptBuffer = some e) {n : ℕ} (hn : n ≤ c.unread.length) : Sound ks chunks
      (if c.length - n = 0 then
        { c with
          sent := c.sent ++ e.unread.take n
          encryptBuffer := some { e with position := e.position + n }
          offset := c.offset + n
          length := c.length - n
          state := .idle }
      else
        { c with
          sent := c.sent ++ e.unread.take n
          encryptBuffer := some { e with position := e.position + n }
          offset := c.offset + n
          length := c.length - n }) := by
  have hu : c.unread = e.unread := by rw [unread, he]
  have hdrop : ({ e with position := e.position + n } : EncryptBuffer).unread = e.unread.drop n := by
    rw [EncryptBuffer.unread, EncryptBuffer.unread, drop_drop]
  have hlen : (e.unread.drop n).length = c.unread.length - n := by rw [length_drop, hu]
  have hahead := h.ahead
  obtain ⟨-, d, hd, hle⟩ := h.servable
  have hs := h.stream
  rw [hu, ← take_append_drop n e.unread] at hs
  have hs' := hs.send
  rw [take_append_drop, ← congrArg List.length hu] at hs'
  split_ifs with hz
  · have hnil : e.unread.drop n = [] := length_eq_zero_iff.mp (by omega)
    have hlast : c.length - c.unread.length = 0 := by omega
    rw [hlast, hnil, pieceBytes, take_zero] at hs'
    refine .idle ⟨rfl, fun _ ↦ some_ne_none _, hdrop.trans hnil, fun hb ↦ absurd h.buffer_eq hb, ?_⟩
    rw [h.buffer_eq]
    exact hs'
  refine .uploading ⟨h.state_eq, fun _ ↦ some_ne_none _, h.buffer_eq, h.loaded,
    ⟨Nat.pos_of_ne_zero hz, d, hd, ?_⟩, ?_, ?_⟩
  · dsimp only
    omega
  · exact (congrArg List.length hdrop).trans_le (hlen.trans_le (Nat.sub_le_sub_right hahead n))
  rw [unread]
  dsimp only
  rw [hdrop, hlen, show c.offset + n + (c.unread.length - n) = c.offset + c.unread.length by omega,
    show c.length - n - (c.unread.length - n) = c.length - c.unread.length by omega]
  exact hs'

theorem Uploading.upChunkWrite (quota n : ℕ) :
    Ensures UploadInternal (c.upChunkWrite ks chunks quota n) (Sound ks chunks) := by
  refine .ite (fun _ ↦ .uploading h) fun h0 ↦ ?_
  have hpos := h.servable.1
  have hmin : 0 < min quota c.length := by omega
  refine (h.upChunkEncrypt hmin (min_le_right _ _)).bind fun ⟨q, c₁⟩ ⟨hq, hle, h₁⟩ ↦ ?_
  dsimp only at hq hle h₁ ⊢
  refine .ite (fun hz ↦ by omega) fun _ ↦ ?_
  cases he : c₁.encryptBuffer with
  | none => exact absurd he (h₁.held (by simp [h₁.loaded]))
  | some e => exact h₁.send he ((min_le_right n q).trans hle)

end

theorem Extending.send (h : Extending ks c) (ho : c.extensionOffset = some o) (n : ℕ) : Sound ks chunks
      (if o + min n (c.extensionMessage.length - o) < c.extensionMessage.length then
        { c with
          sent := c.sent ++ (c.extensionMessage.drop o).take (min n (c.extensionMessage.length - o))
          extensionOffset := some (o + min n (c.extensionMessage.length - o)) }
      else
        { c with
          sent := c.sent ++ (c.extensionMessage.drop o).take (min n (c.extensionMessage.length - o))
          extensionOffset := some (o + min n (c.extensionMessage.length - o))
          extensionMessage := []
          state := .idle }) := by
  obtain ⟨hlt, hs⟩ := h.encrypted o ho
  generalize hk : min n (c.extensionMessage.length - o) = k
  rw [← take_append_drop k (c.extensionMessage.drop o), drop_drop] at hs
  have hs' := hs.send
  split_ifs with hend
  · refine .extending ⟨h.state_eq, h.held, h.unread_eq, h.buffer_eq, h.message, nofun, ?_⟩
    intro o' ho'
    cases ho'
    exact ⟨hend, hs'⟩
  rw [drop_eq_nil_of_le (by omega : c.extensionMessage.length ≤ o + k)] at hs'
  refine .idle ⟨rfl, h.held, h.unread_eq, fun hb ↦ absurd h.buffer_eq hb, ?_⟩
  rw [h.buffer_eq]
  exact hs'

theorem Extending.encrypt (h : Extending ks c) (ho : c.extensionOffset = none) : Extending ks { c with
      extensionMessage := crypt ks c.keyPosition c.extensionMessage
      keyPosition := c.keyPosition + c.extensionMessage.length
      extensionOffset := some 0 } where
  state_eq := h.state_eq
  held := h.held
  unread_eq := h.unread_eq
  buffer_eq := h.buffer_eq
  message hm := by
    have hl := congrArg List.length hm
    rw [length_crypt] at hl
    exact h.message (length_eq_zero_iff.mp hl)
  plain := nofun
  encrypted := by
    rintro o ⟨⟩
    have hs := h.plain ho
    rw [← append_nil c.extensionMessage] at hs
    refine ⟨?_, hs.encrypt⟩
    rw [length_crypt]
    exact length_pos_iff.mpr h.message

theorem Extending.upExtension (h : Extending ks c) (n : ℕ) :
    Ensures UploadInternal (c.upExtension ks n) (Sound ks chunks) := by
  rw [Upload.upExtension]
  cases ho : c.extensionOffset with
  | none =>
    have h' := h.encrypt ho
    refine .ite (fun hle ↦ ?_) fun _ ↦ h'.send rfl n
    exact absurd (h'.encrypted 0 rfl).1 (not_lt.mpr hle)
  | some o => exact .ite (fun hle ↦ absurd (h.encrypted o ho).1 (not_lt.mpr hle)) fun _ ↦ h.send ho n

end Write

theorem Sound.at {state : UploadState} (h : Sound ks chunks c) (hs : c.state = state) : match state with
    | .idle => Idle ks c
    | .msg => Queued ks chunks c
    | .writePiece => Uploading ks chunks c
    | .writeExtension => Extending ks c := by
  cases h with
  | idle h | queued h | uploading h | extending h =>
    cases h.state_eq.symm.trans hs
    exact h

theorem Sound.step (h : Sound ks chunks c) (e : Event) :
    Ensures UploadInternal (step ks chunks e c) (Sound ks chunks) := by
  cases e with
  | keepalive =>
    by_cases hi : c.state = .idle
    · exact .idle (h.at hi).receiveKeepalive
    · rw [Upload.step, receiveKeepalive, if_neg fun hk ↦ hi hk.1]
      exact h
  | choke choke =>
    rw [Upload.step, receiveUploadChoke]
    split_ifs
    · exact h
    · exact h.requests choke true c.uploadQueue
  | request p =>
    rw [Upload.step, readRequestPiece]
    split_ifs
    · exact h
    · exact h.requests c.choked c.sendChoked _
  | cancel p => exact h.requests c.choked c.sendChoked _
  | fill other id message skip => exact .ite (fun hi ↦ (h.at hi).fillWriteBuffer other id message skip) fun _ ↦ h
  | buffer n => exact .ite (fun hi ↦ (h.at hi).writeBuffer n) fun _ ↦ h
  | chunk quota n => exact .ite (fun hi ↦ (h.at hi).upChunkWrite quota n) fun _ ↦ h
  | extension n => exact .ite (fun hi ↦ (h.at hi).upExtension n) fun _ ↦ h

theorem Stream.isPrefix (h : Stream ks c encrypted plain) : c.sent <+: crypt ks 0 c.prepared := by
  obtain ⟨done, hp, -, hs⟩ := h
  rw [hp, crypt_append, ← hs, append_assoc]
  exact prefix_append _ _

theorem Stream.length_eq (h : Stream ks c encrypted plain) :
    c.sent.length + (encrypted.length + plain.length) = c.prepared.length := by
  obtain ⟨done, hp, -, hs⟩ := h
  have hl := congrArg List.length hs
  rw [length_append, length_crypt] at hl
  rw [hp, length_append, ← hl, Nat.add_assoc]

theorem Queued.length_payload (h : Queued ks chunks c) :
    c.unsent = c.buffer.length + (c.payload chunks).length := by
  rw [unsent, h.state_eq, payload]
  cases hl : c.lastCommand with
  | piece =>
    obtain ⟨-, d, hd, hle⟩ := h.piece hl
    rw [length_pieceBytes hd hle]
  | extension | other => rfl

theorem Sound.stream (h : Sound ks chunks c) :
    ∃ encrypted plain, Stream ks c encrypted plain ∧ c.unsent = encrypted.length + plain.length := by
  cases h with
  | idle h => exact ⟨_, _, h.stream, by rw [unsent, h.state_eq]; rfl⟩
  | queued h => exact ⟨_, _, h.stream, h.length_payload⟩
  | uploading h =>
    obtain ⟨-, d, hd, hle⟩ := h.servable
    have hahead := h.ahead
    refine ⟨_, _, h.stream, ?_⟩
    rw [unsent, h.state_eq, length_pieceBytes hd (by omega)]
    dsimp only
    omega
  | extending h =>
    rw [unsent, h.state_eq]
    cases ho : c.extensionOffset with
    | none => exact ⟨_, _, h.plain ho, by simp⟩
    | some o => exact ⟨_, _, (h.encrypted o ho).2, by simp⟩

theorem Sound.ahead (h : Sound ks chunks c) : c.unread.length ≤ c.length := by
  cases h with
  | idle h => simp [h.unread_eq]
  | queued h => simp [h.unread_eq]
  | uploading h => exact h.ahead
  | extending h => simp [h.unread_eq]

/-- Whatever the quotas and whatever the socket takes, no error of the program's own comes up,
what went out is the keystream on the bytes of the messages and the pieces, in order and each
once, and no more of a piece is encrypted ahead than is still to be sent. -/
theorem run_sent_isPrefix (ks : ℕ → UInt8) (chunks : UInt32 → Option Bytes) (es : List Event) :
    Ensures UploadInternal (run ks chunks es) fun c ↦
      c.sent <+: crypt ks 0 c.prepared ∧ c.sent.length + c.unsent = c.prepared.length ∧
        c.unread.length ≤ c.length := by
  have hrun : Ensures UploadInternal (run ks chunks es) (Sound ks chunks) :=
    ensures_forEach_inv (fun e _ h ↦ h.step e) es (.idle idle_fresh)
  refine hrun.mono fun c h ↦ ?_
  obtain ⟨encrypted, plain, hs, hu⟩ := h.stream
  exact ⟨hs.isPrefix, hu ▸ hs.length_eq, h.ahead⟩

example :
    (run (fun _ ↦ 255) (fun _ ↦ some [1, 2, 3]) [.choke false, .fill [] 0 [] 0, .buffer 5, .request ⟨0, 1, 2⟩,
      .fill [] 0 [] 0, .buffer 9, .buffer 9, .chunk 1 1, .chunk 9 9]).toOption.map (fun c ↦ c.sent.drop 18) =
      some [253, 252] := by
  decide

end Upload

end LibTorrent
