import Lasso.Value.Basic
/-!
# Packed values can be read back

* `readVarint?_varint`, `readBytes?_encodeBytes`, `Value.decode?_encode` -- **every form says itself
  where it ends**: a reader finds what was written, and leaves what stands behind it;
* `readAll?_flatMap` -- so the things of a sequence are found one after the other
  (`Value.unpack?_pack`);
* `Value.Formed` -- the values that can be built, whose tuples hold packed values; all of them can be
  read through to the last element (`Value.Formed.readable`).
-/

namespace Lasso

/-! ## 1. Numbers and lengths -/

theorem toNat_toUInt8_of_lt {n : Nat} (h : n < 256) : n.toUInt8.toNat = n := by
  show (UInt8.ofNat n).toNat = n
  rw [UInt8.toNat_ofNat', Nat.mod_eq_of_lt h]

/-- **A number is read back**, and what follows it is left. -/
theorem readVarint?_varint (n : Nat) (rest : Bytes) :
    readVarint? (varint n ++ rest) = some (n, rest) := by
  fun_induction varint n with
  | case1 n hn =>
    have e : n.toUInt8.toNat = n := toNat_toUInt8_of_lt (by omega)
    rw [List.singleton_append, readVarint?, e, if_pos hn]
  | case2 n hn ih =>
    have e : (n % 128 + 128).toUInt8.toNat = n % 128 + 128 := toNat_toUInt8_of_lt (by omega)
    have hsum : n % 128 + 128 - 128 + 128 * (n / 128) = n := by omega
    rw [List.cons_append, readVarint?, e, if_neg (by omega), ih]
    show some (n % 128 + 128 - 128 + 128 * (n / 128), rest) = _
    rw [hsum]

theorem unzigzag_zigzag (i : Int) : unzigzag (zigzag i) = i := by
  cases i with
  | ofNat n =>
    have hmod : 2 * n % 2 = 0 := by omega
    have hdiv : 2 * n / 2 = n := by omega
    rw [zigzag, unzigzag, if_pos hmod, hdiv]
  | negSucc n =>
    have hmod : ¬ (2 * n + 1) % 2 = 0 := by omega
    have hdiv : (2 * n + 1) / 2 = n := by omega
    rw [zigzag, unzigzag, if_neg hmod, hdiv]

/-- **Bytes with their length in front are read back**, and what follows them is left. -/
theorem readBytes?_encodeBytes (b rest : Bytes) :
    readBytes? (encodeBytes b ++ rest) = some (b, rest) := by
  have hlen : b.length ≤ (b ++ rest).length := by
    rw [List.length_append]
    omega
  unfold readBytes? encodeBytes
  rw [List.append_assoc, readVarint?_varint]
  show (if b.length ≤ (b ++ rest).length then
    some ((b ++ rest).take b.length, (b ++ rest).drop b.length) else none) = _
  rw [if_pos hlen, List.take_left, List.drop_left]

/-- A sequence is read from the front. -/
theorem readAll?_of_read? {α : Type} {read? : Bytes → Option (α × Bytes)}
    {shorter : ∀ {b rest : Bytes} {a : α}, read? b = some (a, rest) → rest.length < b.length}
    {b rest : Bytes} {a : α} (h : read? b = some (a, rest)) :
    readAll? read? shorter b = (readAll? read? shorter rest).map (a :: ·) := by
  have hne : b.isEmpty = false := by
    cases b with
    | nil => exact absurd (shorter h) (Nat.not_lt_zero _)
    | cons x xs => rfl
  rw [readAll?, hne, if_neg Bool.false_ne_true]
  split
  · rename_i hnone
    rw [h] at hnone
    cases hnone
  · rename_i a' rest' hsome
    rw [h] at hsome
    cases hsome
    rfl

/-- **The things of a sequence are read back** if each of them is, whatever follows it. -/
theorem readAll?_flatMap {α : Type} {read? : Bytes → Option (α × Bytes)}
    {shorter : ∀ {b rest : Bytes} {a : α}, read? b = some (a, rest) → rest.length < b.length}
    {write : α → Bytes} {as : List α} (h : ∀ a ∈ as, ∀ rest, read? (write a ++ rest) = some (a, rest)) :
    readAll? read? shorter (as.flatMap write) = some as := by
  induction as with
  | nil =>
    rw [List.flatMap_nil, readAll?]
    rfl
  | cons a as ih =>
    rw [List.flatMap_cons, readAll?_of_read? (h a List.mem_cons_self _),
      ih fun c hc => h c (List.mem_cons_of_mem a hc)]
    rfl

namespace Value

/-! ## 2. Values -/

/-- **A value is read back**, and what follows it is left. -/
theorem decode?_encode (v : Value) (rest : Bytes) : decode? (v.encode ++ rest) = some (v, rest) := by
  cases v with
  | int n =>
    have e : Int64.ofInt (unzigzag (zigzag n.toInt)) = n := by rw [unzigzag_zigzag, Int64.ofInt_toInt]
    simp only [encode, decode?, List.append_assoc, readVarint?_varint, Option.bind_eq_bind,
      Option.bind_some, Option.map_some, e]
  | bool b =>
    have e : (b.toNat != 0) = b := by cases b <;> rfl
    simp only [encode, decode?, List.append_assoc, readVarint?_varint, Option.bind_eq_bind,
      Option.bind_some, Option.map_some, e]
  | str s =>
    simp only [encode, decode?, List.append_assoc, readVarint?_varint, readBytes?_encodeBytes,
      Option.bind_eq_bind, Option.bind_some, Option.map_some]
  | tuple p =>
    simp only [encode, decode?, List.append_assoc, readVarint?_varint, readBytes?_encodeBytes,
      Option.bind_eq_bind, Option.bind_some, Option.map_some]

/-- **The values of a packed sequence are read back.** -/
theorem unpack?_pack (vs : List Value) : unpack? (pack vs) = some vs :=
  readAll?_flatMap fun v _ => decode?_encode v

theorem decode?_pack_cons (v : Value) (vs : List Value) :
    decode? (pack (v :: vs)) = some (v, pack vs) := by
  rw [pack, List.flatMap_cons, decode?_encode]
  rfl

theorem pack_concat (vs : List Value) (v : Value) : pack (vs ++ [v]) = pack vs ++ v.encode := by
  rw [pack, pack, List.flatMap_append, List.flatMap_singleton]

@[simp] theorem unpack_pack (vs : List Value) : unpack (pack vs) = vs := by
  rw [unpack, unpack?_pack, Option.getD_some]

/-! ## 3. Tuples all the way down -/

/-- **A value that can be built**: a tuple is built of values. -/
inductive Formed : Value → Prop where
  | int (n : Int64) : Formed (.int n)
  | bool (b : Bool) : Formed (.bool b)
  | str (s : Bytes) : Formed (.str s)
  | tuple (vs : List Value) (h : ∀ v ∈ vs, Formed v) : Formed (ofList vs)

/-- A value that can be read through: the elements of a tuple are found, and can be read in turn. -/
inductive Readable : Value → Prop where
  | int (n : Int64) : Readable (.int n)
  | bool (b : Bool) : Readable (.bool b)
  | str (s : Bytes) : Readable (.str s)
  | tuple (p : Bytes) (vs : List Value) (e : unpack? p = some vs) (h : ∀ v ∈ vs, Readable v) :
      Readable (.tuple p)

theorem Formed.readable {v : Value} (h : v.Formed) : v.Readable := by
  induction h with
  | int n => exact .int n
  | bool b => exact .bool b
  | str s => exact .str s
  | tuple vs _ ih => exact .tuple (pack vs) vs (unpack?_pack vs) ih

end Value

end Lasso
