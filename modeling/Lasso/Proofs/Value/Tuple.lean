import Mathlib.Tactic.Choose
import Lasso.Number.Word64
import Lasso.Proofs.Value.Encoding
/-!
# Tuples lose nothing

A tuple is kept as the bytes of its elements, and these may be tuples again. This file shows that nothing
is lost that way, however deep the tuples are nested.

* `Value.consume?` -- the value that bytes start with and the number of its bytes; what is read next
  stands right behind them (`decode?_eq_map_consume?`);
* `Datum` -- what a value holds, as a tree. **Two trees have the same value only if they are the same**
  (`Datum.value_inj`), and the values of trees are those that can be built (`Value.formed_iff`);
* `tuples_lose_nothing` -- reading finds what was written, and tuples behave as the lists of their
  elements.
-/

namespace Lasso

/-! ## 1. Where a value ends -/

theorem suffix_of_readVarint? {b rest : Bytes} {n : Nat} (h : readVarint? b = some (n, rest)) :
    rest <:+ b := by
  induction b generalizing n with
  | nil => cases h
  | cons x xs ih =>
    rw [readVarint?] at h
    split at h
    · cases h
      exact List.suffix_cons x _
    · obtain ⟨⟨k, r⟩, hk, h⟩ := Option.bind_eq_some_iff.mp h
      cases h
      exact (ih hk).trans (List.suffix_cons x xs)

theorem suffix_of_readBytes? {b s rest : Bytes} (h : readBytes? b = some (s, rest)) : rest <:+ b := by
  obtain ⟨⟨n, r⟩, hn, h⟩ := Option.bind_eq_some_iff.mp h
  obtain ⟨-, h⟩ := Option.ite_none_right_eq_some.mp h
  cases h
  exact (List.drop_suffix n r).trans (suffix_of_readVarint? hn)

namespace Value

/-- What is left behind a value is what its content leaves. -/
theorem suffix_of_map {α : Type} {read? : Bytes → Option (α × Bytes)}
    (hread : ∀ {b rest : Bytes} {a : α}, read? b = some (a, rest) → rest <:+ b)
    {f : α × Bytes → Value} {b rest : Bytes} {v : Value}
    (h : (read? b).map (fun x => (f x, x.2)) = some (v, rest)) :
    rest <:+ b := by
  obtain ⟨⟨a, r⟩, ha, e⟩ := Option.map_eq_some_iff.mp h
  cases e
  exact hread ha

theorem suffix_of_decode? {b rest : Bytes} {v : Value} (h : decode? b = some (v, rest)) : rest <:+ b := by
  obtain ⟨⟨k, r⟩, hk, h⟩ := Option.bind_eq_some_iff.mp h
  refine List.IsSuffix.trans ?_ (suffix_of_readVarint? hk)
  simp only at h
  split at h
  · exact suffix_of_map suffix_of_readVarint? h
  · exact suffix_of_map suffix_of_readVarint? h
  · exact suffix_of_map suffix_of_readBytes? h
  · exact suffix_of_map suffix_of_readBytes? h
  · cases h

/-- The value that bytes start with, and the number of its bytes. -/
def consume? (b : Bytes) : Option (Value × Nat) :=
  (decode? b).map fun x => (x.1, b.length - x.2.length)

/-- **What is read next stands behind the bytes of the value.** -/
theorem decode?_eq_map_consume? (b : Bytes) :
    decode? b = (consume? b).map fun x => (x.1, b.drop x.2) := by
  rw [consume?, Option.map_map]
  cases h : decode? b with
  | none => rfl
  | some x =>
    have hdrop := List.suffix_iff_eq_drop.mp (suffix_of_decode? h)
    exact congrArg (fun rest => some (x.1, rest)) hdrop

/-- **A value is read with all its bytes and no more.** -/
theorem consume?_encode (v : Value) (rest : Bytes) :
    consume? (v.encode ++ rest) = some (v, v.encode.length) := by
  rw [consume?, decode?_encode, Option.map_some, List.length_append, Nat.add_sub_cancel]

/-- The numbers that integers are written as have 64 bits. -/
theorem zigzag_lt_count (n : Int64) : zigzag n.toInt < Word64.count := by
  have hlo := n.le_toInt
  have hhi := n.toInt_lt
  unfold Word64.count
  generalize n.toInt = i at hlo hhi
  cases i with
  | ofNat k =>
    rw [Int.ofNat_eq_natCast] at hhi
    rw [zigzag]
    omega
  | negSucc k =>
    rw [zigzag]
    omega

example : zigzag Int64.minValue.toInt = Word64.count - 1 := by decide

end Value

/-! ## 2. Data -/

/-- What a value holds: an integer, a truth value, a byte string, or a tuple of such. -/
inductive Datum where
  | int (n : Int64)
  | bool (b : Bool)
  | str (s : Bytes)
  | tuple (elements : List Datum)

/-- The value that holds a datum. -/
def Datum.value : Datum → Value
  | .int n => .int n
  | .bool b => .bool b
  | .str s => .str s
  | .tuple cs => .ofList (cs.map value)

namespace Value

theorem ofList_inj {vs ws : List Value} : ofList vs = ofList ws ↔ vs = ws := by
  refine ⟨fun h => ?_, fun h => h ▸ rfl⟩
  rw [← unpack_pack vs, ← unpack_pack ws, Value.tuple.inj h]

end Value

/-- **A value holds one datum only**, whatever tuples are nested in it. -/
theorem Datum.value_inj {c d : Datum} : c.value = d.value ↔ c = d := by
  refine ⟨fun h => ?_, fun h => h ▸ rfl⟩
  induction c using Datum.value.induct generalizing d with
  | case1 n => cases d <;> simp_all [Datum.value, Value.ofList]
  | case2 b => cases d <;> simp_all [Datum.value, Value.ofList]
  | case3 s => cases d <;> simp_all [Datum.value, Value.ofList]
  | case4 cs ih =>
    cases d with
    | tuple ds =>
      rw [Datum.value, Datum.value, Value.ofList_inj] at h
      -- the values are packed side by side, so the lists agree place by place
      have hlen : cs.length = ds.length := by simpa using congrArg List.length h
      refine congrArg Datum.tuple (List.ext_getElem hlen fun i hc hd => ?_)
      refine ih _ (List.getElem_mem hc) ?_
      simpa [hc, hd] using congrArg (fun l : List Value => l[i]?) h
    | _ => simp [Datum.value, Value.ofList] at h

/-- **The values that can be built are those of data.** -/
theorem Value.formed_iff {v : Value} : v.Formed ↔ ∃ c : Datum, c.value = v := by
  constructor
  · intro h
    induction h with
    | int n => exact ⟨.int n, by rw [Datum.value]⟩
    | bool b => exact ⟨.bool b, by rw [Datum.value]⟩
    | str s => exact ⟨.str s, by rw [Datum.value]⟩
    | tuple vs _ ih =>
      choose datum hdatum using ih
      refine ⟨.tuple (vs.attach.map fun v => datum v.1 v.2), ?_⟩
      simp [Datum.value, hdatum]
  · rintro ⟨c, rfl⟩
    induction c using Datum.value.induct with
    | case1 n => rw [Datum.value]; exact .int n
    | case2 b => rw [Datum.value]; exact .bool b
    | case3 s => rw [Datum.value]; exact .str s
    | case4 cs ih =>
      rw [Datum.value]
      exact .tuple _ (List.forall_mem_map.mpr ih)

theorem Datum.readable (c : Datum) : c.value.Readable := (Value.formed_iff.mpr ⟨c, rfl⟩).readable

/-! ## 3. Tuples as lists -/

namespace Slot

open Value

/-- Slots that all hold values make a tuple of these. -/
theorem tuple_map_some (vs : List Value) : tuple (vs.map some) = .ok (ofList vs) := by
  have hget : (vs.map some).mapM get = Except.ok vs := by
    induction vs with
    | nil => rfl
    | cons v vs ih =>
      rw [List.map_cons, List.mapM_cons, ih]
      rfl
  rw [tuple, hget]
  rfl

theorem elements_ofList (vs : List Value) : elements (some (ofList vs)) = .ok vs := by
  show Except.ok (unpack (pack vs)) = _
  rw [unpack_pack]

theorem length_ofList (vs : List Value) : length (some (ofList vs)) = .ok vs.length := by
  rw [length, elements_ofList]
  rfl

theorem append_ofList (vs : List Value) (v : Value) :
    append (some (ofList vs)) (some v) = .ok (ofList (vs ++ [v])) := by
  rw [ofList, ofList, pack_concat]
  rfl

theorem uncons?_ofList_cons (v : Value) (vs : List Value) :
    uncons? (some (ofList (v :: vs))) = .ok (some (v, ofList vs)) := by
  rw [ofList, uncons?, decode?_pack_cons]
  rfl

theorem uncons?_empty : uncons? (some Value.empty) = .ok none := rfl

end Slot

/-- **Tuples lose nothing.** A value is read back from its bytes, whatever follows them, with exactly as
    many bytes as it was written in, and reading goes on behind these; the numbers of integers fit into
    64 bits. What can be built is the value of one datum, and is read through to its last leaf. A tuple
    behaves as the list of its elements: built, taken apart, compared, extended at its end and split at
    its front. -/
theorem tuples_lose_nothing :
    (∀ (v : Value) (rest : Bytes),
      Value.consume? (v.encode ++ rest) = some (v, v.encode.length)) ∧
    (∀ b : Bytes, Value.decode? b = (Value.consume? b).map fun x => (x.1, b.drop x.2)) ∧
    (∀ n : Int64, zigzag n.toInt < Word64.count) ∧
    (∀ v : Value, v.Formed ↔ ∃ c : Datum, c.value = v) ∧
    (∀ c d : Datum, c.value.Readable ∧ (c.value = d.value ↔ c = d)) ∧
    (∀ (vs ws : List Value) (w : Value),
      Slot.tuple (vs.map some) = .ok (.ofList vs) ∧
        Value.unpack? (Value.pack vs) = some vs ∧
        Slot.elements (some (.ofList vs)) = .ok vs ∧
        (Value.ofList vs = Value.ofList ws ↔ vs = ws) ∧
        Slot.append (some (.ofList vs)) (some w) = .ok (.ofList (vs ++ [w])) ∧
        Slot.length (some (.ofList vs)) = .ok vs.length ∧
        Slot.uncons? (some (.ofList (w :: vs))) = .ok (some (w, .ofList vs))) ∧
    Slot.uncons? (some (.ofList [])) = .ok none :=
  ⟨Value.consume?_encode, Value.decode?_eq_map_consume?, Value.zigzag_lt_count, fun _ => Value.formed_iff,
    fun c _ => ⟨c.readable, Datum.value_inj⟩,
    fun vs _ w => ⟨Slot.tuple_map_some vs, Value.unpack?_pack vs, Slot.elements_ofList vs,
      Value.ofList_inj, Slot.append_ofList vs w, Slot.length_ofList vs,
      Slot.uncons?_ofList_cons w vs⟩,
    Slot.uncons?_empty⟩

end Lasso
