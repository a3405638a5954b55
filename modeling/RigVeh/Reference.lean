/-
  RigVeh.Reference — one `Crates` to run the model on.

  JSON strings, integers, hex and SHA-256 are the crates' own algorithms. The rest is
  right where it is used below and lawful everywhere:
  - A manifest has a name and local tools, and nothing else is set.
  - `unifiedDiff` is that of texts of one line (canonical JSON is one).
  - Of the floats, 0.5 and 1.0 are printed as such; any other prints its bits.
  - The keys of the seeds `[7; 32]` (that of `tests/canonical_snapshot.rs`) and `[8; 32]`
    are Ed25519's, and so are their signatures of the messages in `signatures` and
    `operatorSignatures`; any other signature is a hash of key and message.

  The laws of `Crates` hold of it (`signs`, `hexReads`, `jsonText`, `manifestInjective`,
  `manifestReads`), and it signs the snapshot's fixture to the pinned node.
-/

import Mathlib.Data.Bool.AllAny
import Mathlib.Tactic.IntervalCases
import RigVeh.Identity.Sign

namespace RigVeh.Reference

open RigVeh.Json RigVeh.Base

/-! ## Hex -/

def hexDigit (n : Nat) : Char := if n < 10 then Char.ofNat (48 + n) else Char.ofNat (87 + n)

def hexVal (c : Char) : Option Nat :=
  if '0' ≤ c ∧ c ≤ '9' then some (c.toNat - 48)
  else if 'a' ≤ c ∧ c ≤ 'f' then some (c.toNat - 87)
  else if 'A' ≤ c ∧ c ≤ 'F' then some (c.toNat - 55)
  else none

def hexEncode (b : Bytes) : String :=
  String.ofList (b.flatMap fun x => [hexDigit (x.toNat / 16), hexDigit (x.toNat % 16)])

def hexVal' (b : UInt8) (i : Nat) : Except String Nat :=
  match hexVal (Char.ofNat b.toNat) with
  | some n => .ok n
  | none => .error ("Invalid character " ++ (Char.ofNat b.toNat).quote ++ " at position " ++ toString i)

def hexPairs : Bytes → Nat → Except String Bytes
  | [], _ => .ok []
  | [_], _ => .error "Odd number of digits"
  | a :: b :: r, i => do
    let x ← hexVal' a i
    let y ← hexVal' b (i + 1)
    return UInt8.ofNat (16 * x + y) :: (← hexPairs r (i + 2))

def hexDecode (s : String) : Except String Bytes :=
  let b := utf8 s.toList
  if b.length % 2 = 1 then .error "Odd number of digits" else hexPairs b 0

theorem hexVal_hexDigit {n : Nat} (h : n < 16) : hexVal (hexDigit n) = some n := by
  interval_cases n <;> decide

/-- A digit is one byte. -/
theorem utf8_hexDigit {n : Nat} (h : n < 16) :
    ∃ b : UInt8, String.utf8EncodeChar (hexDigit n) = [b] ∧ Char.ofNat b.toNat = hexDigit n := by
  interval_cases n <;> exact ⟨_, rfl, by decide⟩

theorem hexPairs_encode (b : Bytes) : ∃ u, utf8 (b.flatMap fun x => [hexDigit (x.toNat / 16), hexDigit (x.toNat % 16)]) = u ∧
    u.length % 2 = 0 ∧ ∀ i, hexPairs u i = .ok b := by
  induction b with
  | nil => exact ⟨[], rfl, rfl, fun _ => rfl⟩
  | cons x b ih =>
    have hx : x.toNat < 256 := x.toNat_lt
    have hbyte : 16 * (x.toNat / 16) + x.toNat % 16 = x.toNat := by omega
    obtain ⟨y, hy, hydigit⟩ := utf8_hexDigit (show x.toNat / 16 < 16 by omega)
    obtain ⟨z, hz, hzdigit⟩ := utf8_hexDigit (show x.toNat % 16 < 16 by omega)
    obtain ⟨u, hu, hlen, hpairs⟩ := ih
    refine ⟨y :: z :: u, ?_, ?_, fun i => ?_⟩
    · simp only [utf8] at hu
      simp [utf8, hy, hz, hu]
    · simp only [List.length_cons]
      omega
    · simp only [hexPairs, hexVal', hydigit, hzdigit, hexVal_hexDigit (show x.toNat / 16 < 16 by omega),
        hexVal_hexDigit (show x.toNat % 16 < 16 by omega), hpairs, hbyte, UInt8.ofNat_toNat, bind, Except.bind, pure,
        Except.pure]

theorem hexDecode_hexEncode (b : Bytes) : hexDecode (hexEncode b) = .ok b := by
  obtain ⟨u, hu, hlen, hpairs⟩ := hexPairs_encode b
  simp only [hexDecode, hexEncode, String.toList_ofList, hu]
  rw [if_neg (by omega), hpairs]

/-! ## SHA-256 -/

namespace Sha256

def roundConstants : List Nat := [
  0x428a2f98, 0x71374491, 0xb5c0fbcf, 0xe9b5dba5, 0x3956c25b, 0x59f111f1, 0x923f82a4, 0xab1c5ed5,
  0xd807aa98, 0x12835b01, 0x243185be, 0x550c7dc3, 0x72be5d74, 0x80deb1fe, 0x9bdc06a7, 0xc19bf174,
  0xe49b69c1, 0xefbe4786, 0x0fc19dc6, 0x240ca1cc, 0x2de92c6f, 0x4a7484aa, 0x5cb0a9dc, 0x76f988da,
  0x983e5152, 0xa831c66d, 0xb00327c8, 0xbf597fc7, 0xc6e00bf3, 0xd5a79147, 0x06ca6351, 0x14292967,
  0x27b70a85, 0x2e1b2138, 0x4d2c6dfc, 0x53380d13, 0x650a7354, 0x766a0abb, 0x81c2c92e, 0x92722c85,
  0xa2bfe8a1, 0xa81a664b, 0xc24b8b70, 0xc76c51a3, 0xd192e819, 0xd6990624, 0xf40e3585, 0x106aa070,
  0x19a4c116, 0x1e376c08, 0x2748774c, 0x34b0bcb5, 0x391c0cb3, 0x4ed8aa4a, 0x5b9cca4f, 0x682e6ff3,
  0x748f82ee, 0x78a5636f, 0x84c87814, 0x8cc70208, 0x90befffa, 0xa4506ceb, 0xbef9a3f7, 0xc67178f2]

def rotr (x n : Nat) : Nat := (x >>> n ||| x <<< (32 - n)) % 2 ^ 32

structure State where
  a : Nat
  b : Nat
  c : Nat
  d : Nat
  e : Nat
  f : Nat
  g : Nat
  h : Nat

def State.words (s : State) : List Nat := [s.a, s.b, s.c, s.d, s.e, s.f, s.g, s.h]

def initial : State :=
  ⟨0x6a09e667, 0xbb67ae85, 0x3c6ef372, 0xa54ff53a, 0x510e527f, 0x9b05688c, 0x1f83d9ab, 0x5be0cd19⟩

/-- The message schedule's next word, from the last sixteen. -/
def nextWord : List Nat → Nat
  | w0 :: w1 :: _ :: _ :: _ :: _ :: _ :: _ :: _ :: w9 :: _ :: _ :: _ :: _ :: w14 :: _ =>
    let s0 := rotr w1 7 ^^^ rotr w1 18 ^^^ w1 >>> 3
    let s1 := rotr w14 17 ^^^ rotr w14 19 ^^^ w14 >>> 10
    (w0 + s0 + w9 + s1) % 2 ^ 32
  | _ => 0

def round : State → Nat → Nat → State
  | ⟨a, b, c, d, e, f, g, h⟩, k, w =>
    let s1 := rotr e 6 ^^^ rotr e 11 ^^^ rotr e 25
    let ch := (e &&& f) ^^^ ((2 ^ 32 - 1 - e) &&& g)
    let t1 := h + s1 + ch + k + w
    let s0 := rotr a 2 ^^^ rotr a 13 ^^^ rotr a 22
    let maj := (a &&& b) ^^^ (a &&& c) ^^^ (b &&& c)
    ⟨(t1 + s0 + maj) % 2 ^ 32, a, b, c, (d + t1) % 2 ^ 32, e, f, g⟩

def rounds : List Nat → List Nat → State → State
  | [], _, s => s
  | k :: ks, w, s => rounds ks (w.tail ++ [nextWord w]) (round s k (w.headD 0))

def compress (s : State) (w : List Nat) : State :=
  let t := rounds roundConstants w s
  let add (x y : Nat) := (x + y) % 2 ^ 32
  ⟨add s.a t.a, add s.b t.b, add s.c t.c, add s.d t.d, add s.e t.e, add s.f t.f, add s.g t.g, add s.h t.h⟩

def bigEndian (n len : Nat) : List Nat := (List.range len).map fun i => n / 256 ^ (len - 1 - i) % 256

def pad (m : List Nat) : List Nat :=
  m ++ 0x80 :: List.replicate ((119 - m.length % 64) % 64) 0 ++ bigEndian (m.length * 8) 8

def toWords : List Nat → List Nat
  | a :: b :: c :: d :: r => (a * 2 ^ 24 + b * 2 ^ 16 + c * 2 ^ 8 + d) :: toWords r
  | _ => []

def blocks : Nat → List Nat → State → State
  | 0, _, s => s
  | n + 1, w, s => blocks n (w.drop 16) (compress s (w.take 16))

def digest (m : Bytes) : ByteArr 32 :=
  let w := toWords (pad (m.map UInt8.toNat))
  ⟨((blocks (w.length / 16) w initial).words.flatMap (bigEndian · 4)).map UInt8.ofNat, by
    simp [State.words, bigEndian]⟩

end Sha256

/-! ## JSON text -/

/-- A control character in a JSON string. -/
def control : Nat → Text
  | 8 => ['\\', 'b']
  | 9 => ['\\', 't']
  | 10 => ['\\', 'n']
  | 12 => ['\\', 'f']
  | 13 => ['\\', 'r']
  | n => ['\\', 'u', '0', '0', hexDigit (n / 16), hexDigit (n % 16)]

def escape (c : Char) : Text :=
  if c = '"' then ['\\', '"'] else if c = '\\' then ['\\', '\\'] else if c.toNat < 32 then control c.toNat else [c]

/-- The first character a JSON string's text stands for, and the rest. -/
def unescape : Text → Option (Char × Text)
  | [] => none
  | '"' :: _ => none
  | '\\' :: '"' :: t => some ('"', t)
  | '\\' :: '\\' :: t => some ('\\', t)
  | '\\' :: 'b' :: t => some (Char.ofNat 8, t)
  | '\\' :: 't' :: t => some (Char.ofNat 9, t)
  | '\\' :: 'n' :: t => some (Char.ofNat 10, t)
  | '\\' :: 'f' :: t => some (Char.ofNat 12, t)
  | '\\' :: 'r' :: t => some (Char.ofNat 13, t)
  | '\\' :: 'u' :: '0' :: '0' :: x :: y :: t => some (Char.ofNat (16 * (hexVal x).getD 0 + (hexVal y).getD 0), t)
  | c :: t => some (c, t)

theorem unescape_control {n : Nat} (h : n < 32) (t : Text) : unescape (control n ++ t) = some (Char.ofNat n, t) := by
  interval_cases n <;> rfl

theorem unescape_escape (c : Char) (t : Text) : unescape (escape c ++ t) = some (c, t) := by
  unfold escape
  by_cases hq : c = '"'
  · subst hq; rfl
  by_cases hb : c = '\\'
  · subst hb; rfl
  by_cases hc : c.toNat < 32
  · rw [if_neg hq, if_neg hb, if_pos hc, unescape_control hc, Char.ofNat_toNat]
  · rw [if_neg hq, if_neg hb, if_neg hc, List.cons_append, List.nil_append]
    unfold unescape
    split <;> simp_all

def string (s : String) : Text := '"' :: (s.toList.flatMap escape ++ ['"'])

theorem body_cut (l l' t t' : Text) (h : l.flatMap escape ++ '"' :: t = l'.flatMap escape ++ '"' :: t') :
    l = l' ∧ t = t' := by
  have hquote : ∀ u, unescape ('"' :: u) = none := fun u => by simp [unescape]
  induction l generalizing l' with
  | nil =>
    cases l' with
    | nil => simpa using h
    | cons c l' =>
      have := congrArg unescape h
      simp only [List.flatMap_nil, List.nil_append, hquote, List.flatMap_cons, List.append_assoc, unescape_escape] at this
      cases this
  | cons c l ih =>
    have := congrArg unescape h
    cases l' with
    | nil =>
      simp only [List.flatMap_nil, List.nil_append, hquote, List.flatMap_cons, List.append_assoc, unescape_escape] at this
      cases this
    | cons c' l' =>
      simp only [List.flatMap_cons, List.append_assoc, unescape_escape, Option.some.injEq, Prod.mk.injEq] at this
      obtain ⟨hl, ht⟩ := ih l' this.2
      exact ⟨by rw [this.1, hl], ht⟩

def half : F64 := ⟨0x3fe0000000000000⟩

def one : F64 := ⟨0x3ff0000000000000⟩

def floatText (x : F64) : Text :=
  if x = half then "0.5".toList else if x = one then "1.0".toList else Nat.toDigits 10 x.bits.toNat ++ ['e', '0']

def number : Number → Text
  | .posInt n => Nat.toDigits 10 n.toNat
  | .negInt i _ => '-' :: Nat.toDigits 10 i.toInt.natAbs
  | .float x _ => floatText x

/-- Numbers are told apart by the marks they are written with. -/
def kind (t : Text) : Nat := if '-' ∈ t then 1 else if '.' ∈ t then 2 else if 'e' ∈ t then 3 else 0

theorem not_mem_toDigits {c : Char} (hc : c.isDigit = false) (n : Nat) : c ∉ Nat.toDigits 10 n := by
  intro h
  rw [Nat.isDigit_of_mem_toDigits (by decide) (by decide) h] at hc
  cases hc

theorem floatText_cases (x : F64) : (x = half ∧ floatText x = "0.5".toList) ∨ (x = one ∧ floatText x = "1.0".toList) ∨
    floatText x = Nat.toDigits 10 x.bits.toNat ++ ['e', '0'] := by
  unfold floatText
  by_cases hh : x = half
  · exact .inl ⟨hh, if_pos hh⟩
  · by_cases ho : x = one
    · exact .inr (.inl ⟨ho, by rw [if_neg hh, if_pos ho]⟩)
    · exact .inr (.inr (by rw [if_neg hh, if_neg ho]))

theorem kind_number (n : Number) :
    match n with
    | .posInt _ => kind (number n) = 0
    | .negInt _ _ => kind (number n) = 1
    | .float _ _ => 2 ≤ kind (number n) := by
  have h1 := not_mem_toDigits (show '-'.isDigit = false by decide)
  have h2 := not_mem_toDigits (show '.'.isDigit = false by decide)
  have h3 := not_mem_toDigits (show 'e'.isDigit = false by decide)
  cases n with
  | posInt n => simp [kind, number, h1, h2, h3]
  | negInt i h => simp [kind, number]
  | float x h =>
    simp only [number]
    rcases floatText_cases x with ⟨-, hx⟩ | ⟨-, hx⟩ | hx
    · rw [hx]; decide
    · rw [hx]; decide
    · simp [hx, kind, h1, h2]

theorem toDigits_inj {m n : Nat} (h : Nat.toDigits 10 m = Nat.toDigits 10 n) : m = n := by
  rw [← Nat.ofDigitChars_ten_toDigits (n := m), h, Nat.ofDigitChars_ten_toDigits]

theorem floatText_inj : Function.Injective floatText := by
  have hlast : ∀ m, (Nat.toDigits 10 m ++ ['e', '0']).dropLast.getLast? = some 'e' := by
    intro m
    simp [List.dropLast_append_of_ne_nil]
  intro x y h
  rcases floatText_cases x with ⟨rfl, hx⟩ | ⟨rfl, hx⟩ | hx <;> rcases floatText_cases y with ⟨rfl, hy⟩ | ⟨rfl, hy⟩ | hy
  · rfl
  · exact absurd h (by decide)
  · exact absurd ((congrArg (·.dropLast.getLast?) (hx.symm.trans (h.trans hy))).trans (hlast _)) (by decide)
  · exact absurd h (by decide)
  · rfl
  · exact absurd ((congrArg (·.dropLast.getLast?) (hx.symm.trans (h.trans hy))).trans (hlast _)) (by decide)
  · exact absurd ((congrArg (·.dropLast.getLast?) (hy.symm.trans (h.symm.trans hx))).trans (hlast _)) (by decide)
  · exact absurd ((congrArg (·.dropLast.getLast?) (hy.symm.trans (h.symm.trans hx))).trans (hlast _)) (by decide)
  · rw [hx, hy, List.append_cancel_right_eq] at h
    have hbits : x.bits = y.bits := BitVec.eq_of_toNat_eq (toDigits_inj h)
    cases x; cases y
    exact congrArg F64.mk hbits

theorem number_inj : Function.Injective number := by
  intro m n h
  have hm := kind_number m
  have hn := kind_number n
  rw [← h] at hn
  rcases m with a | ⟨i, hi⟩ | ⟨x, hx⟩ <;> rcases n with b | ⟨j, hj⟩ | ⟨y, hy⟩ <;> simp only at hm hn
  · exact congrArg _ (UInt64.toNat_inj.mp (toDigits_inj h))
  · omega
  · omega
  · omega
  · have hab : i.toInt.natAbs = j.toInt.natAbs := toDigits_inj (List.cons.inj h).2
    have hi' : i.toInt < 0 := Int64.lt_iff_toInt_lt.mp hi
    have hj' : j.toInt < 0 := Int64.lt_iff_toInt_lt.mp hj
    have : i = j := Int64.toInt_inj.mp (by omega)
    simp [this]
  · omega
  · omega
  · omega
  · obtain rfl := floatText_inj h
    rfl

theorem number_chars (n : Number) : ∀ c ∈ number n, Crates.NumberChar c := by
  have hdigit : ∀ (m : Nat), ∀ c ∈ Nat.toDigits 10 m, Crates.NumberChar c := by
    intro m c hc
    have hd : 48 ≤ c.toNat ∧ c.toNat ≤ 57 := by
      simpa [Char.isDigit, UInt32.le_iff_toNat_le] using Nat.isDigit_of_mem_toDigits (by decide) (by decide) hc
    obtain ⟨k, hk⟩ : ∃ k, c.toNat = k := ⟨_, rfl⟩
    rw [← Char.ofNat_toNat c, hk]
    rw [hk] at hd
    obtain ⟨hl, hu⟩ := hd
    interval_cases k <;> decide
  have hfloat : ∀ c ∈ "0.5".toList ++ "1.0".toList, Crates.NumberChar c := List.all_iff_forall_prop.mp (by decide)
  have hexp : ∀ c ∈ ['e', '0'], Crates.NumberChar c := List.all_iff_forall_prop.mp (by decide)
  intro c hc
  rcases n with n | ⟨i, hi⟩ | ⟨x, hx⟩
  · exact hdigit _ c hc
  · rcases List.mem_cons.mp hc with rfl | hc
    · decide
    · exact hdigit _ c hc
  · rw [number] at hc
    rcases floatText_cases x with ⟨-, hx⟩ | ⟨-, hx⟩ | hx <;> rw [hx] at hc
    · exact hfloat c (List.mem_append_left _ hc)
    · exact hfloat c (List.mem_append_right _ hc)
    · rcases List.mem_append.mp hc with hc | hc
      · exact hdigit _ c hc
      · exact hexp c hc

theorem number_ne (n : Number) : number n ≠ [] := by
  rcases n with n | ⟨i, hi⟩ | ⟨x, hx⟩
  · exact Nat.toDigits_ne_nil
  · simp [number]
  · rw [number]
    rcases floatText_cases x with ⟨-, hx⟩ | ⟨-, hx⟩ | hx <;> simp [hx]

/-! ## Manifests -/

structure Manifest where
  name : Option String
  tools : List ToolSpec
  deriving DecidableEq

def toolName : ToolSpec → String
  | .Local name => name

def toolValue (t : ToolSpec) : Value :=
  .object [("kind", .string "local"), ("name", .string (toolName t))] (show ["kind", "name"].Nodup by decide)

def Manifest.toValue (m : Manifest) : Value :=
  .object [
    ("name", .ofOption .string m.name),
    ("model", .null),
    ("instructions", .null),
    ("tools", .array (m.tools.map toolValue)),
    ("mcp_servers", .array []),
    ("knowledge", .null),
    ("delegates", .array [])]
    (show ["name", "model", "instructions", "tools", "mcp_servers", "knowledge", "delegates"].Nodup by decide)

theorem toolValue_injective {t t' : ToolSpec} (h : toolValue t ≈ toolValue t') : t = t' := by
  have hname : Value.string (toolName t) ≈ .string (toolName t') :=
    Value.object_equiv h (k := "name") (by simp) (by simp)
  cases t; cases t'
  exact congrArg _ ((Value.string_equiv _ _).mp hname)

theorem Manifest.toValue_injective {m m' : Manifest} (h : m.toValue ≈ m'.toValue) : m = m' := by
  have hname : m.name = m'.name := ofOption_string_equiv (Value.object_equiv h (k := "name") (by simp) (by simp))
  have htools : Value.array (m.tools.map toolValue) ≈ .array (m'.tools.map toolValue) :=
    Value.object_equiv h (k := "tools") (by simp) (by simp)
  rw [Value.array_equiv, List.forall₂_map_left_iff, List.forall₂_map_right_iff] at htools
  have : m.tools = m'.tools := List.forall₂_eq_eq_eq ▸ htools.imp fun _ _ => toolValue_injective
  cases m; cases m'
  simp_all

def toolOf (t : Tree) : Except String ToolSpec :=
  match t.get "kind", t.get "name" with
  | some (.string "local"), some (.string name) => .ok (.Local name)
  | _, _ => .error "invalid tool"

def nameOf : Option Tree → Except String (Option String)
  | some (.string s) => .ok (some s)
  | some .null => .ok none
  | none => .ok none
  | _ => .error "invalid name"

def toolsOf : Option Tree → Except String (List ToolSpec)
  | some (.array items) => items.mapM toolOf
  | none => .ok []
  | _ => .error "invalid tools"

def Manifest.ofValue (v : Value) : Except String Manifest := do
  return ⟨← nameOf (v.1.get "name"), ← toolsOf (v.1.get "tools")⟩

theorem get_same {m : List (String × Value)} {hm : (m.map Prod.fst).Nodup} {w : Tree} (h : (Value.object m hm).1.Same w)
    {k : String} {v : Value} (hv : (k, v) ∈ m) : ∃ u, w.get k = some u ∧ v.1.Same u := by
  cases w with
  | object n => exact (Tree.sameEntries_iff _ n).mp h.2 (k, v.1) (List.mem_map.mpr ⟨(k, v), hv, rfl⟩)
  | _ => exact absurd h id

theorem same_string {s : String} {w : Tree} (h : (Tree.string s).Same w) : w = .string s := by
  cases w with
  | string s' => rw [show s = s' from h]
  | _ => exact absurd h id

theorem toolOf_same {t : ToolSpec} {w : Tree} (h : (toolValue t).1.Same w) : toolOf w = .ok t := by
  obtain ⟨name⟩ := t
  obtain ⟨u, hu, hk⟩ := get_same h (k := "kind") (v := .string "local") (by simp)
  obtain ⟨u', hu', hn⟩ := get_same h (k := "name") (v := .string name) (by simp [toolName])
  obtain rfl := same_string hk
  obtain rfl := same_string hn
  simp only [toolOf, hu, hu']

theorem nameOf_same {name : Option String} {w : Tree} (h : (Value.ofOption .string name).1.Same w) :
    nameOf (some w) = .ok name := by
  cases name with
  | none =>
    cases w with
    | null => rfl
    | _ => exact absurd h id
  | some s =>
    obtain rfl := same_string h
    rfl

theorem toolsOf_same {tools : List ToolSpec} {w : Tree} (h : (Value.array (tools.map toolValue)).1.Same w) :
    toolsOf (some w) = .ok tools := by
  cases w with
  | array items =>
    have hall : List.Forall₂ (fun t w => (toolValue t).1.Same w) tools items := by
      have := (Tree.sameItems_iff _ items).mp h
      rwa [List.forall₂_map_left_iff, List.forall₂_map_left_iff] at this
    clear h
    rw [toolsOf]
    induction hall with
    | nil => rfl
    | cons ht _ ih =>
      rw [List.mapM_cons, toolOf_same ht, ih]
      rfl
  | _ => exact absurd h id

theorem Manifest.ofValue_same {m : Manifest} {w : Value} (h : m.toValue ≈ w) : Manifest.ofValue w = .ok m := by
  obtain ⟨u, hu, hname⟩ := get_same h (k := "name") (v := .ofOption .string m.name) (by simp)
  obtain ⟨u', hu', htools⟩ := get_same h (k := "tools") (v := .array (m.tools.map toolValue)) (by simp)
  rw [Manifest.ofValue, hu, hu', nameOf_same hname, toolsOf_same htools]
  rfl

/-- The unified diff of two texts of one line without a newline. -/
def unifiedDiff (old new : Bytes) : String :=
  if old = new then "" else
    let line (b : Bytes) := (String.fromUTF8? b.toByteArray).getD ""
    "--- parent\n+++ candidate\n@@ -1 +1 @@\n-" ++ line old ++ "\n\\ No newline at end of file\n+" ++ line new ++
      "\n\\ No newline at end of file\n"

/-! ## Signatures -/

/-- The last `n` bytes of a number, the most significant first. -/
def bytesOf (n : Nat) (v : Nat) : ByteArr n := ⟨(Sha256.bigEndian v n).map UInt8.ofNat, by simp [Sha256.bigEndian]⟩

def seed : ByteArr 32 := ⟨List.replicate 32 7, by simp⟩

def publicKey : ByteArr 32 := bytesOf 32 0xea4a6c63e29c520abef5507b132ec5f9954776aebebe7b92421eea691446d22c

/-- An approver's key. -/
def operatorKey : ByteArr 32 := ⟨List.replicate 32 8, by simp⟩

def operatorPublicKey : ByteArr 32 := bytesOf 32 0x1398f62c6d1a457c51ba6a4b5f3dbd2f69fca93216218dc8997e416bd17d93ca

/-- The messages signed below with `seed`, by the first bytes of their SHA-256 digests, and
    their signatures. -/
def signatures : List (Bytes × Nat) := [
  ([0x2a, 0x01, 0xef, 0xae],
    0xbc22603587a6bccb97e7a85b7a73aca10939a371ce91ee2b3896f4b39a01f291949aa0cb899c0c29221ee18758e2972e0f7088909b4d37f78877c3710d1c6701),
  ([0xc9, 0xa3, 0xc1, 0xac],
    0x38b9e2b8424745b85fbe95459b49001d02b71ccac3914a0a2362bf4465334327875ccbd819ddb84da48e75d23ff202a91000084c7fe2f8f0d46ae2ad7e207701),
  ([0x29, 0xcb, 0xa2, 0x2b],
    0xc6bbfdec034f4507cc58967621021b30fbca2060404650459f8210ccce3ac89f409a9eb19c25f4ce1ee902eb8f3468707193a06de60bb32cb2ea345069ae5c06),
  ([0x74, 0xb8, 0xdf, 0xa8],
    0xb87730c7fa9b670498a5466d32393dbf90aef066c53ca593ba020ec473fb7abf301cd9f240e36696b16f701f94b56f71e9daed35ff41bfd67c4a3875fcc2da04),
  ([0x2a, 0x38, 0xff, 0x30],
    0xaeec9790a8baf87ceffcc7327038d2f85c610fa21e212deaa8950a12c140120f88323779c42f77439bcce12c1ff87c71c2caf19f72614abdc9f573f213233b00),
  ([0xb8, 0x9d, 0x2b, 0xdd],
    0xb0ac52dfbf4d50e47ffd350b00d9b7929591156f7f5ac4c051cd280ff060dc2f9d800f2b0d5fdf97b3c4bf8877c52ac03efdc7de913e222c86c4fa4da58df506),
  ([0xe7, 0x1b, 0x66, 0x64],
    0x6af5502ef98108b2885ce66ce1057b439d902bc6114c389027451809280360668b6a6c7533e076dd00b19b8ef044041fec5115c9a182c22c1b47f23ead0ef90c),
  ([0x57, 0x5c, 0xc8, 0x09],
    0xf9551d3a925470a8b2d2173c555781aea0e35d562364779bc0eae541cfb50fd64925679fb8ee616368d147f1b4afd56308a112422eac7881cd0da951c52d640f),
  ([0x49, 0xcf, 0xde, 0x03],
    0x698fcc053a185852a65b1d8992e549ff0742ac2366e3a44b4ae138b85727c8c213849567ba5db55f2aa00292c7dd2ea62cd6862d11bdf90dc63bb578cbe2e406),
  ([0x18, 0x0c, 0xa7, 0xd5],
    0x37d81067e4da1417432560acc33989413c8e659f4b5a1830d0e7c6649e5d2adb92b11da7bdedc4ec2caf55ee8b39360f8b7a5d0e49d6d3e5d529f76e73ead909)]

/-- The one signed with `operatorKey`. -/
def operatorSignatures : List (Bytes × Nat) := [
  ([0x74, 0xb8, 0xdf, 0xa8],
    0x87417b39d5bb1da14079a5caf68e7106b73308f89a894961a422a440b34adaf2ea9f6927ade31d46848b9a4c90162fd91329f3b3da1b36778f69194c4f99e506)]

def verifyingKey (k : ByteArr 32) : ByteArr 32 :=
  if k = seed then publicKey else if k = operatorKey then operatorPublicKey else Sha256.digest k.1

def signaturesOf (key : ByteArr 32) : List (Bytes × Nat) :=
  if key = publicKey then signatures else if key = operatorPublicKey then operatorSignatures else []

def signature (key : ByteArr 32) (m : Bytes) : ByteArr 64 :=
  match (signaturesOf key).lookup ((Sha256.digest m).1.take 4) with
  | some s => bytesOf 64 s
  | none => other
where
  other : ByteArr 64 := ⟨(Sha256.digest (key.1 ++ m)).1 ++ (Sha256.digest (m ++ key.1)).1, by
    simp [(Sha256.digest _).2]⟩

def verify (key : ByteArr 32) (m : Bytes) (s : ByteArr 64) : Except String Unit :=
  if s = signature key m then .ok () else .error "signature error: Verification equation was not satisfied"

end RigVeh.Reference

namespace RigVeh

open RigVeh.Json

/-- The crates, as described above. -/
def Reference : Crates where
  Manifest := Reference.Manifest
  tools m := m.tools
  mcpServers _ := []
  delegates _ := []
  manifestToValue m := .ok m.toValue
  manifestFromValue := Reference.Manifest.ofValue
  number := Reference.number
  string := Reference.string
  f64 x := if x = Reference.half then "0.5" else if x = Reference.one then "1" else "?"
  debug s := "\"" ++ s ++ "\""
  unifiedDiff := Reference.unifiedDiff
  sha256 := Reference.Sha256.digest
  SigningKey := ByteArr 32
  VerifyingKey := ByteArr 32
  verifyingKey := Reference.verifyingKey
  sign k m := Reference.signature (Reference.verifyingKey k) m
  keyToBytes k := k
  keyFromBytes b := .ok b
  verify := Reference.verify
  hexEncode := Reference.hexEncode
  hexDecode := Reference.hexDecode

namespace Reference

theorem signs : Reference.Signs where
  key _ := rfl
  verifies _ _ := if_pos rfl

theorem hexReads : Reference.HexReads := hexDecode_hexEncode

theorem jsonText : Reference.JsonText where
  number_inj := number_inj
  number_ne := number_ne
  number_chars := number_chars
  string_quote _ := ⟨_, rfl⟩
  string_cut s s' t t' h := by
    have h : s.toList.flatMap escape ++ '"' :: t = s'.toList.flatMap escape ++ '"' :: t' := by
      simpa [Reference, string] using h
    obtain ⟨hs, ht⟩ := body_cut _ _ _ _ h
    exact ⟨String.toList_inj.mp hs, ht⟩

theorem manifestInjective : Reference.ManifestInjective := by
  rintro m m' v v' ⟨⟩ ⟨⟩ h
  exact Manifest.toValue_injective h

theorem manifestReads : Reference.ManifestReads where
  writes m := ⟨_, rfl⟩
  reads m v w hm h := by
    cases hm
    exact ⟨m, _, Manifest.ofValue_same h, rfl, canonicalJson_injective jsonText rfl⟩
  names m m' v v' hm hm' h := by
    obtain rfl := manifestInjective m m' v v' hm hm' h
    exact ⟨rfl, rfl, rfl⟩

theorem manifestToValue_eq (m : Manifest) : Crates.manifestToValue Reference m = .ok m.toValue := rfl

theorem signNode_ok (i : CommitInputs Reference) (k : ByteArr 32) : ∃ node, signNode i k = .ok node :=
  signNode_total (manifestToValue_eq _) k

/-! ## The snapshot -/

/-- `name: root`, `tools: []`. -/
def rootArtifact : AgentArtifact Reference := ⟨⟨some "root", []⟩⟩

/-- `fixture_inputs`. -/
def snapshot : CommitInputs Reference where
  parentId := none
  generation := 0
  createdAt := "2026-01-01T00:00:00Z"
  mutationIntent := .new "genesis"
  mutationDiff := ""
  allowedScope := .default
  evalResults := none
  artifact := rootArtifact
  status := .promoted
  parentAgentSuccess := true
  validParent := true
  evalStage := none

/-- The node pinned there. -/
def snapshotNode : AgentNode Reference where
  agentId := "d75a8c0e5eb9e5042896999c710c103193bb48cbb94cdabe7f7ed095b65c8dd0"
  parentId := none
  generation := 0
  createdAt := "2026-01-01T00:00:00Z"
  mutationIntent := .new "genesis"
  capabilitySbom := []
  evalResults := none
  mutationDiff := ""
  allowedScope := .default
  artifact := rootArtifact
  signerPublicKey := "ea4a6c63e29c520abef5507b132ec5f9954776aebebe7b92421eea691446d22c"
  signature := "bc22603587a6bccb97e7a85b7a73aca10939a371ce91ee2b3896f4b39a01f291" ++
    "949aa0cb899c0c29221ee18758e2972e0f7088909b4d37f78877c3710d1c6701"
  status := .promoted
  parentAgentSuccess := true
  validParent := true
  evalStage := none

/-- Nodes signed from the same inputs with the same key are told apart by id and
    signature. -/
theorem signNode_eq {i : CommitInputs Reference} {k : ByteArr 32} {node : AgentNode Reference} (hi : node.inputs = i)
    (hs : node.capabilitySbom = i.artifact.capabilitySbom)
    (hn : (signNode i k).map (fun n => (n.agentId, n.signature, n.signerPublicKey)) =
      .ok (node.agentId, node.signature, node.signerPublicKey)) : signNode i k = .ok node := by
  cases h : signNode i k with
  | error e => rw [h] at hn; cases hn
  | ok n =>
    obtain ⟨hni, hns, -⟩ := signNode_inputs h
    rw [h] at hn
    obtain ⟨h1, h2, h3⟩ : n.agentId = node.agentId ∧ n.signature = node.signature ∧
        n.signerPublicKey = node.signerPublicKey := by simpa [Except.map] using hn
    have hni : n.inputs = node.inputs := hni.trans hi.symm
    have hns : n.capabilitySbom = node.capabilitySbom := hns.trans hs.symm
    cases n; cases node
    simp only [AgentNode.inputs, CommitInputs.mk.injEq] at hni
    simp_all

theorem snapshot_signed : signNode snapshot seed = .ok snapshotNode :=
  signNode_eq rfl (by decide) (by decide +kernel)

end Reference

end RigVeh
