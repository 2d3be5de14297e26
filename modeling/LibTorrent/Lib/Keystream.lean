import Mathlib.Data.List.Infix

namespace Lib.Keystream

open List

variable (ks : ℕ → UInt8)

def crypt : ℕ → List UInt8 → List UInt8
  | _, [] => []
  | n, c :: b => (c ^^^ ks n) :: crypt (n + 1) b

variable {ks}

@[simp] theorem crypt_nil (n : ℕ) : crypt ks n [] = [] := rfl

@[simp] theorem length_crypt (n : ℕ) (b : List UInt8) : (crypt ks n b).length = b.length := by
  induction b generalizing n with
  | nil => rfl
  | cons c b ih => simp [crypt, ih]

theorem crypt_append (n : ℕ) (a b : List UInt8) :
    crypt ks n (a ++ b) = crypt ks n a ++ crypt ks (n + a.length) b := by
  induction a generalizing n with
  | nil => rfl
  | cons c a ih => simp [crypt, ih, Nat.add_assoc, Nat.add_comm 1]

/-- A stream that goes on with `body` behind a greeting: plain, plain behind a greeting that was encrypted, or encrypted
from the greeting on. The flag says whether the stream is encrypted, and the number is the next place of the keystream. -/
inductive Carries (ks : ℕ → UInt8) (greeting : List UInt8) : Bool → ℕ → List UInt8 → List UInt8 → Prop
  | plain (base body : List UInt8) (pos : ℕ) : Carries ks greeting false pos body (base ++ greeting ++ body)
  | obfuscated (base body : List UInt8) (p pos : ℕ) :
      Carries ks greeting false pos body (base ++ crypt ks p greeting ++ body)
  | encrypted (base body : List UInt8) (p : ℕ) :
      Carries ks greeting true (p + greeting.length + body.length) body (base ++ crypt ks p (greeting ++ body))

section Carries

variable {ks : ℕ → UInt8} {greeting body stream : List UInt8} {pos : ℕ}

theorem Carries.append_plain (hc : Carries ks greeting false pos body stream) (s : List UInt8) :
    Carries ks greeting false pos (body ++ s) (stream ++ s) := by
  cases hc with
  | plain base =>
    rw [append_assoc]
    exact .plain base (body ++ s) pos
  | obfuscated base body p =>
    rw [append_assoc]
    exact .obfuscated base (body ++ s) p pos

theorem Carries.append_encrypted (hc : Carries ks greeting true pos body stream) (s : List UInt8) :
    Carries ks greeting true (pos + s.length) (body ++ s) (stream ++ crypt ks pos s) := by
  cases hc with
  | encrypted base body p =>
    have hstream : base ++ crypt ks p (greeting ++ body) ++ crypt ks (p + greeting.length + body.length) s =
        base ++ crypt ks p (greeting ++ (body ++ s)) := by
      rw [← append_assoc greeting, crypt_append p (greeting ++ body), length_append, Nat.add_assoc p,
        append_assoc]
    have hpos : p + greeting.length + body.length + s.length = p + greeting.length + (body ++ s).length := by
      rw [length_append, Nat.add_assoc _ body.length]
    rw [hstream, hpos]
    exact .encrypted base (body ++ s) p

theorem Carries.ending (hc : Carries ks greeting true pos body stream) :
    stream.drop (stream.length - (greeting ++ body).length) =
      crypt ks (pos - (greeting ++ body).length) (greeting ++ body) := by
  cases hc with
  | encrypted base body p =>
    have hpos : p + greeting.length + body.length - (greeting ++ body).length = p := by
      rw [length_append]
      omega
    have hlen : (base ++ crypt ks p (greeting ++ body)).length - (greeting ++ body).length = base.length := by
      rw [length_append, length_crypt]
      omega
    rw [hpos, hlen, drop_left]

theorem Carries.obfuscate {enc : Bool} (hc : Carries ks greeting enc pos [] stream) (pos' : ℕ) :
    Carries ks greeting false pos' [] stream := by
  cases hc with
  | plain base => exact .plain base [] pos'
  | obfuscated base _ p => exact .obfuscated base [] p pos'
  | encrypted base _ p =>
    have hc' : Carries ks greeting false pos' [] (base ++ crypt ks p greeting ++ []) := .obfuscated base [] p pos'
    rwa [append_nil] at hc' ⊢

end Carries

end Lib.Keystream
