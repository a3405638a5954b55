/-
  RigVeh.Crates — what the crate uses of code that is not its own.

  `Crates` gathers the functions of rig-compose, serde_json, similar, sha2,
  ed25519-dalek, hex and std's formatting that the modelled code calls. Nothing is said
  of them here: what a result relies on is a named hypothesis below it, each one
  documented behaviour of the crate.
  - `Signs`: Ed25519 reads back the keys it published and verifies what it signed.
  - `HexReads`: hex decodes what it encoded.
  - `JsonText`: serde_json's numbers and strings can be cut back off the text they are
    written in.
  - `ManifestInjective`: two manifests with the same serde form are the same.
  - `ManifestReads`: every manifest has a serde form, which names its tools, servers and
    delegates and is read back to a manifest with the same one.

  Of a manifest the crate reads the names of its local tools, MCP servers and
  delegates and its serde form; the rest of the record is rig-compose's own.
-/

import RigVeh.Base.Cut
import RigVeh.Json.Value

namespace RigVeh

open RigVeh.Json RigVeh.Base

abbrev Bytes := List UInt8

/-- `[u8; n]`. -/
abbrev ByteArr (n : Nat) := { b : Bytes // b.length = n }

abbrev Text := List Char

/-- The bytes of a text. -/
def utf8 (t : Text) : Bytes := t.flatMap String.utf8EncodeChar

theorem utf8_injective : Function.Injective utf8 := by
  intro s t h
  have hs : s.utf8Encode = t.utf8Encode := by
    simp only [List.utf8Encode]
    exact congrArg List.toByteArray h
  have := List.utf8Decode?_utf8Encode (l := s)
  rw [hs, List.utf8Decode?_utf8Encode] at this
  simpa using this.symm

/-- A byte of an ASCII character is that character. -/
theorem utf8_ascii {t : Text} {c : Char} (hc : c.val < 128) (h : c.toUInt8 ∈ utf8 t) : c ∈ t := by
  obtain ⟨d, hd, hm⟩ := List.mem_flatMap.mp h
  have hc : c.val.toNat < 128 := UInt32.lt_iff_toNat_lt.mp hc
  have hb : c.toUInt8.toNat = c.val.toNat := (UInt32.toNat_toUInt8 c.val).trans (Nat.mod_eq_of_lt (by omega))
  have hor (x : UInt8) {m : UInt8} (hm : 128 ≤ m) : ¬ c.toUInt8 = x ||| m := by
    intro h
    have hle := Nat.le_trans (UInt8.le_iff_toNat_le.mp hm) (Nat.right_le_or (n := x.toNat))
    rw [← UInt8.toNat_or, ← h, hb] at hle
    exact absurd hc (Nat.not_lt.mpr hle)
  rcases d.utf8Size_eq with hs | hs | hs | hs
  · rw [String.utf8EncodeChar_eq_singleton hs, List.mem_singleton] at hm
    have hle : d.val.toNat ≤ 127 := UInt32.le_iff_toNat_le.mp (Char.utf8Size_eq_one_iff.mp hs)
    have hcd : c.val.toNat = d.val.toNat := by
      rw [← hb, hm, UInt32.toNat_toUInt8]
      omega
    rwa [Char.ext (UInt32.toNat_inj.mp hcd)]
  · simp (disch := decide) [String.utf8EncodeChar_eq_cons_cons hs, hor] at hm
  · simp (disch := decide) [String.utf8EncodeChar_eq_cons_cons_cons hs, hor] at hm
  · simp (disch := decide) [String.utf8EncodeChar_eq_cons_cons_cons_cons hs, hor] at hm

def fromUtf8 (b : Bytes) : Option Text := b.toByteArray.utf8Decode?.map Array.toList

theorem fromUtf8_utf8 (t : Text) : fromUtf8 (utf8 t) = some t := by
  have : (utf8 t).toByteArray = t.utf8Encode := rfl
  rw [fromUtf8, this, List.utf8Decode?_utf8Encode]
  simp

/-- `rig_compose::ToolSpec`. -/
inductive ToolSpec where
  | Local (name : String)
  deriving DecidableEq, Repr

structure Crates where
  /-- `rig_compose::AgentManifest`. -/
  Manifest : Type
  tools : Manifest → List ToolSpec
  /-- The names of the manifest's MCP servers. -/
  mcpServers : Manifest → List String
  /-- The names of the manifest's delegates. -/
  delegates : Manifest → List String
  /-- `serde_json::to_value` of a manifest. -/
  manifestToValue : Manifest → Except String Value
  /-- `serde_json::from_value` to a manifest. -/
  manifestFromValue : Value → Except String Manifest
  /-- `Display` of a `serde_json::Number`. -/
  number : Number → Text
  /-- `serde_json::to_string` of a string. -/
  string : String → Text
  /-- `Display` of an `f64`. -/
  f64 : F64 → String
  /-- `Debug` of a string. -/
  debug : String → String
  /-- `TextDiff::from_lines` of two texts, as a unified diff with context radius 3 and
      the header `parent`, `candidate`. -/
  unifiedDiff : Bytes → Bytes → String
  sha256 : Bytes → ByteArr 32
  SigningKey : Type
  VerifyingKey : Type
  verifyingKey : SigningKey → VerifyingKey
  sign : SigningKey → Bytes → ByteArr 64
  /-- `VerifyingKey::to_bytes`. -/
  keyToBytes : VerifyingKey → ByteArr 32
  /-- `VerifyingKey::from_bytes`. -/
  keyFromBytes : ByteArr 32 → Except String VerifyingKey
  verify : VerifyingKey → Bytes → ByteArr 64 → Except String Unit
  hexEncode : Bytes → String
  hexDecode : String → Except String Bytes

namespace Crates

variable (X : Crates)

structure Signs : Prop where
  key : ∀ k, X.keyFromBytes (X.keyToBytes (X.verifyingKey k)) = .ok (X.verifyingKey k)
  verifies : ∀ k m, X.verify (X.verifyingKey k) m (X.sign k m) = .ok ()

def HexReads : Prop := ∀ b, X.hexDecode (X.hexEncode b) = .ok b

/-- The characters of JSON numbers. -/
def NumberChar (c : Char) : Prop := c ∈ ['0', '1', '2', '3', '4', '5', '6', '7', '8', '9', '+', '-', '.', 'e', 'E']

instance (c : Char) : Decidable (NumberChar c) := inferInstanceAs (Decidable (c ∈ _))

structure JsonText : Prop where
  number_inj : Function.Injective X.number
  number_ne : ∀ n, X.number n ≠ []
  number_chars : ∀ n, ∀ c ∈ X.number n, NumberChar c
  string_quote : ∀ s, ∃ r, X.string s = '"' :: r
  string_cut : ∀ s s' t t', X.string s ++ t = X.string s' ++ t' → s = s' ∧ t = t'

def ManifestInjective : Prop :=
  ∀ m m' v v', X.manifestToValue m = .ok v → X.manifestToValue m' = .ok v' → v ≈ v' → m = m'

structure ManifestReads : Prop where
  writes : ∀ m, ∃ v, X.manifestToValue m = .ok v
  reads : ∀ m v w, X.manifestToValue m = .ok v → v ≈ w →
    ∃ m' v', X.manifestFromValue w = .ok m' ∧ X.manifestToValue m' = .ok v' ∧ v ≈ v'
  names : ∀ m m' v v', X.manifestToValue m = .ok v → X.manifestToValue m' = .ok v' → v ≈ v' →
    X.tools m = X.tools m' ∧ X.mcpServers m = X.mcpServers m' ∧ X.delegates m = X.delegates m'

variable {X}

theorem HexReads.injective (h : X.HexReads) : Function.Injective X.hexEncode := by
  intro a b hab
  have := h a
  rw [hab, h b] at this
  cases this
  rfl

/-- A number is cut off by what cannot go on with a number. -/
theorem JsonText.number_cut (h : X.JsonText) {n n' : Number} {t t' : Text} (ht : Ends NumberChar t)
    (ht' : Ends NumberChar t') (he : X.number n ++ t = X.number n' ++ t') : n = n' ∧ t = t' := by
  obtain ⟨hn, htt⟩ := span_cut (h.number_chars n) (h.number_chars n') ht ht' he
  exact ⟨h.number_inj hn, htt⟩

end Crates

end RigVeh
