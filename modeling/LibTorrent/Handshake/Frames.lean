import LibTorrent.Handshake.Events

namespace LibTorrent.Handshake

open Lib.Decimal Lib.Program

def outside (h : Handshake) : Handshake :=
  { h with
    readBuffer := {}
    bitfield := none
    readPos := 0
    initialHandshake := true
    info := { h.info with decryptPos := 0 }
    socket := { h.socket with inbox := [], reads := [] } }

theorem of_outside (P : Handshake → Prop) {h h' : Handshake} (he : outside h' = outside h) (hp : P (outside h)) :
    P (outside h') := he ▸ hp

/-- The parts of a handshake that only read. None of them ends the handshake with success. -/
abbrev Reading {α : Type} (x : Part α) : Prop := Keeps outside (· ≠ .succeeded) x

variable {host : Host}

theorem keeps_onlyIf {γ : Type} {view : Handshake → γ} {ok : HandshakeExit → Prop} {p : Bool} {x : Part Unit}
    (hx : Keeps view ok x) : Keeps view ok (onlyIf p x) := .ite hx (keeps_pure _)

theorem reading_readUnthrottled (n : ℕ) : Reading (readUnthrottled n) := by
  refine keeps_get.bind fun h ↦ .ite (keeps_throw nofun) ?_
  rcases h.socket.reads with _ | ⟨_ | k, reads⟩
  · exact keeps_pure _
  · exact keeps_throw nofun
  · exact keeps_modify_bind (fun _ ↦ rfl) fun _ ↦ keeps_pure _

theorem reading_consumeRead (n : ℕ) : Reading (consumeRead n) := keeps_modify fun _ ↦ rfl

theorem reading_readTo (n : ℕ) : Reading (readTo n) :=
  keeps_get.bind fun _ ↦ keeps_onlyIf ((reading_readUnthrottled _).bind fun _ ↦ keeps_modify fun _ ↦ rfl)

theorem reading_decryptRead (n : ℕ) : Reading (decryptRead host n) := keeps_modify fun _ ↦ rfl

theorem reading_pushRead (s : Bytes) : Reading (pushRead host s) := by
  refine keeps_modify fun h ↦ ?_
  split_ifs <;> rfl

theorem reading_fillReadBuffer (n : ℕ) : Reading (fillReadBuffer host n) := by
  refine keeps_get.bind fun _ ↦ .ite (.ite (keeps_throw nofun) ?_) (keeps_pure _)
  exact (reading_readUnthrottled _).bind fun _ ↦ (reading_pushRead _).bind fun _ ↦ keeps_get.bind fun _ ↦ keeps_pure _

theorem reading_getDownload : Reading getDownload := by
  refine keeps_get.bind fun h ↦ ?_
  rcases h.download with _ | d
  · exact keeps_throw nofun
  · exact keeps_pure _

theorem getDownload_eq {h : Handshake} {d : HandshakeDownload} (hd : h.download = some d) : getDownload h = .ok d h := by
  rw [getDownload, get_bind_apply, hd]
  rfl

theorem ends_getDownload_bind {α : Type} {h : Handshake} {f : HandshakeDownload → Part α} {post : α → Handshake → Prop}
    {fails : HandshakeExit → Handshake → Prop} (hnone : h.download = none → fails .outOfBounds h)
    (hsome : ∀ d, h.download = some d → Ends (f d h) post fails) : Ends ((getDownload >>= f) h) post fails := by
  rcases hd : h.download with _ | d
  · have hthrow : Ends (getDownload h) (fun _ _ ↦ False) fails := by
      rw [getDownload, get_bind_apply, hd]
      exact hnone hd
    exact hthrow.bind fun _ _ hfalse ↦ hfalse.elim
  · exact .bind_of_ok (getDownload_eq hd) (hsome d hd)

theorem reading_unsent : Reading unsent := keeps_get.bind fun _ ↦ .ite (keeps_throw nofun) (keeps_pure _)

theorem reading_validateDownload : Reading validateDownload := by
  refine keeps_get.bind fun h ↦ ?_
  rcases h.download with _ | d
  · exact keeps_throw nofun
  · exact .ite (keeps_throw nofun) (.ite (keeps_throw nofun) (keeps_pure _))

theorem reading_readBitfieldPart : Reading (readBitfieldPart host) := by
  refine keeps_get.bind fun _ ↦ reading_getDownload.bind fun _ ↦ ?_
  refine (keeps_onlyIf ?_).bind fun _ ↦ keeps_get.bind fun _ ↦ keeps_pure _
  exact (reading_readUnthrottled _).bind fun _ ↦ keeps_get.bind fun _ ↦ keeps_modify fun _ ↦ rfl

theorem reading_makeRoom : Reading makeRoom := by
  refine keeps_get.bind fun _ ↦ .ite (keeps_throw nofun) (.ite (keeps_pure _) ?_)
  exact keeps_modify_bind (fun _ ↦ rfl) fun _ ↦ keeps_get.bind fun _ ↦ .ite (keeps_pure _) (keeps_throw nofun)

theorem reading_takeExtension : Reading (takeExtension host) := by
  refine keeps_get.bind fun h ↦ .ite (keeps_throw nofun) ?_
  rcases host.parseExtension _ _ with _ | b
  · exact keeps_throw nofun
  · exact keeps_modify fun _ ↦ rfl

theorem reading_readExtension : Reading (readExtension host) :=
  reading_makeRoom.bind fun _ ↦ keeps_get.bind fun _ ↦ (reading_fillReadBuffer _).bind fun _ ↦
    .ite (keeps_pure _) (reading_takeExtension.bind fun _ ↦ keeps_pure _)

theorem reading_readPortPart : Reading (readPortPart host) :=
  reading_makeRoom.bind fun _ ↦ keeps_get.bind fun _ ↦ (reading_fillReadBuffer _).bind fun _ ↦
    .ite (keeps_pure _) ((reading_consumeRead _).bind fun _ ↦ keeps_pure _)

end LibTorrent.Handshake
