import Lasso.Bytes
/-!
# Values and their canonical bytes

A value is an integer of 64 bits, a truth value, a byte string or a tuple of values. A tuple keeps
its elements packed in one byte string, so that values, environments and whole program states are
compared and hashed byte by byte. This file fixes the packed form:

* a number is written in groups of seven bits, lowest group first, each but the last with the high
  bit set (`varint`, `readVarint?`);
* integers of both signs become numbers by alternation (`zigzag`): 0, -1, 1, -2, 2, …;
* a value is its kind's number followed by its content (`Value.encode`, `Value.decode?`), and a
  string of bytes is preceded by its length, so every form says itself where it ends;
* a sequence of values is the concatenation of their forms (`Value.pack`, `Value.unpack?`).
-/

namespace Lasso

/-! ## 1. Numbers and lengths -/

/-- A number in groups of seven bits. -/
def varint (n : Nat) : Bytes :=
  if n < 128 then [n.toUInt8] else (n % 128 + 128).toUInt8 :: varint (n / 128)

/-- Reads a number and returns what follows it. -/
def readVarint? : Bytes → Option (Nat × Bytes)
  | [] => none
  | b :: rest =>
    if b.toNat < 128 then some (b.toNat, rest)
    else do
      let (n, rest) ← readVarint? rest
      return (b.toNat - 128 + 128 * n, rest)

/-- An integer as a number: the non-negative ones are even, the negative ones odd. -/
def zigzag (i : Int) : Nat :=
  match i with
  | .ofNat n => 2 * n
  | .negSucc n => 2 * n + 1

/-- The integer of a number. -/
def unzigzag (n : Nat) : Int :=
  if n % 2 = 0 then .ofNat (n / 2) else .negSucc (n / 2)

/-- Bytes preceded by their number. -/
def encodeBytes (b : Bytes) : Bytes := varint b.length ++ b

/-- Reads bytes that are preceded by their number. -/
def readBytes? (b : Bytes) : Option (Bytes × Bytes) := do
  let (n, rest) ← readVarint? b
  if n ≤ rest.length then some (rest.take n, rest.drop n) else none

theorem length_lt_of_readVarint? {b rest : Bytes} {n : Nat} (h : readVarint? b = some (n, rest)) :
    rest.length < b.length := by
  induction b generalizing n with
  | nil => simp [readVarint?] at h
  | cons x xs ih =>
    simp only [readVarint?] at h
    split at h
    · simp only [Option.some.injEq, Prod.mk.injEq] at h
      simp [h.2]
    · match hr : readVarint? xs with
      | none => simp [hr] at h
      | some (m, r) =>
        simp only [hr, Option.pure_def, Option.bind_eq_bind, Option.bind_some, Option.some.injEq,
          Prod.mk.injEq] at h
        obtain ⟨-, rfl⟩ := h
        have := ih hr
        simp
        omega

theorem length_of_readBytes? {b s rest : Bytes} (h : readBytes? b = some (s, rest)) :
    s.length + rest.length < b.length := by
  unfold readBytes? at h
  match hv : readVarint? b with
  | none => simp [hv] at h
  | some (n, r) =>
    simp only [hv, Option.bind_eq_bind, Option.bind_some, Option.ite_none_right_eq_some,
      Option.some.injEq, Prod.mk.injEq] at h
    obtain ⟨hn, rfl, rfl⟩ := h
    have := length_lt_of_readVarint? hv
    simp
    omega

/-- Reads things one after the other up to the end; nothing when the bytes are no sequence of them.
What is left behind a thing must be shorter. -/
def readAll? {α : Type} (read? : Bytes → Option (α × Bytes))
    (shorter : ∀ {b rest : Bytes} {a : α}, read? b = some (a, rest) → rest.length < b.length)
    (b : Bytes) : Option (List α) :=
  if b.isEmpty then some []
  else
    match _h : read? b with
    | none => none
    | some (a, rest) => (readAll? read? shorter rest).map (a :: ·)
termination_by b.length
decreasing_by exact shorter _h

/-! ## 2. Values -/

/-- An integer, a truth value, a byte string or a tuple. A tuple holds the packed form of its
elements. -/
inductive Value where
  | int (n : Int64)
  | bool (b : Bool)
  | str (s : Bytes)
  | tuple (packed : Bytes)
  deriving DecidableEq, Hashable

namespace Value

/-- The canonical bytes of a value. -/
def encode : Value → Bytes
  | .int n => varint 1 ++ varint (zigzag n.toInt)
  | .bool b => varint 2 ++ varint b.toNat
  | .str s => varint 3 ++ encodeBytes s
  | .tuple p => varint 4 ++ encodeBytes p

/-- Reads one value and returns what follows it. -/
def decode? (b : Bytes) : Option (Value × Bytes) := do
  let (kind, rest) ← readVarint? b
  match kind with
  | 1 => (readVarint? rest).map fun (n, rest) => (.int (.ofInt (unzigzag n)), rest)
  | 2 => (readVarint? rest).map fun (n, rest) => (.bool (n != 0), rest)
  | 3 => (readBytes? rest).map fun (s, rest) => (.str s, rest)
  | 4 => (readBytes? rest).map fun (p, rest) => (.tuple p, rest)
  | _ => none

/-- A bound for the depth of a value: the number of bytes that its elements fill, and one more. -/
def weight : Value → Nat
  | .tuple p => p.length + 1
  | _ => 0

theorem weight_of_decode? {b rest : Bytes} {v : Value} (h : decode? b = some (v, rest)) :
    v.weight + rest.length < b.length := by
  unfold decode? at h
  match hk : readVarint? b with
  | none => simp [hk] at h
  | some (k, r) =>
    have hr := length_lt_of_readVarint? hk
    simp only [hk, Option.bind_eq_bind, Option.bind_some] at h
    split at h
    · obtain ⟨⟨n, r'⟩, hn, e⟩ := Option.map_eq_some_iff.1 h
      simp only [Prod.mk.injEq] at e
      obtain ⟨rfl, rfl⟩ := e
      have := length_lt_of_readVarint? hn
      simp [weight]
      omega
    · obtain ⟨⟨n, r'⟩, hn, e⟩ := Option.map_eq_some_iff.1 h
      simp only [Prod.mk.injEq] at e
      obtain ⟨rfl, rfl⟩ := e
      have := length_lt_of_readVarint? hn
      simp [weight]
      omega
    · obtain ⟨⟨s, r'⟩, hn, e⟩ := Option.map_eq_some_iff.1 h
      simp only [Prod.mk.injEq] at e
      obtain ⟨rfl, rfl⟩ := e
      have := length_of_readBytes? hn
      simp [weight]
      omega
    · obtain ⟨⟨s, r'⟩, hn, e⟩ := Option.map_eq_some_iff.1 h
      simp only [Prod.mk.injEq] at e
      obtain ⟨rfl, rfl⟩ := e
      have := length_of_readBytes? hn
      simp [weight]
      omega
    · simp at h

/-! ## 3. Sequences of values -/

/-- The values one after the other. -/
def pack (vs : List Value) : Bytes := vs.flatMap encode

theorem length_lt_of_decode? {b rest : Bytes} {v : Value} (h : decode? b = some (v, rest)) :
    rest.length < b.length := by
  have := weight_of_decode? h
  omega

/-- Reads values up to the end; nothing when the bytes are not a sequence of values. -/
def unpack? (b : Bytes) : Option (List Value) := readAll? decode? length_lt_of_decode? b

/-- The values of a packed sequence. -/
def unpack (b : Bytes) : List Value := (unpack? b).getD []

theorem weight_of_mem_unpack? {b : Bytes} {vs : List Value} (h : unpack? b = some vs) {v : Value}
    (hv : v ∈ vs) : v.weight < b.length := by
  unfold unpack? at h
  fun_induction readAll? (α := Value) decode? length_lt_of_decode? b generalizing vs with
  | case1 => simp_all
  | case2 => simp at h
  | case3 b _ w rest hd ih =>
    obtain ⟨ws, hws, rfl⟩ := Option.map_eq_some_iff.1 h
    have := weight_of_decode? hd
    rcases List.mem_cons.1 hv with rfl | hv
    · omega
    · have := ih hws hv
      omega

theorem weight_of_mem_unpack {b : Bytes} {v : Value} (hv : v ∈ unpack b) : v.weight < b.length := by
  unfold unpack at hv
  match h : unpack? b with
  | none => simp [h] at hv
  | some vs => exact weight_of_mem_unpack? h (by simpa [h] using hv)

end Value

end Lasso
