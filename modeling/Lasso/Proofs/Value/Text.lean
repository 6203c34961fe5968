import Lasso.Proofs.Text
import Lasso.Proofs.Text.Quoted
import Lasso.Proofs.Value.Encoding
/-!
# Values are known by their texts

* `toldApart_int` -- decimal numbers can be told apart wherever no digit follows;
* `kindOf?` -- the first character of a text tells the kind of the value;
* `Formed.toldApart` -- **the texts of values can be told apart**, whatever tuples are nested in them and
  whatever bytes their strings hold, so two values with the same text are the same
  (`Formed.text_inj`);
* `Side` -- where a reader stands: outside of quotes, within them, or behind a backslash; **a text leads from
  outside of quotes to outside**, and a reader who takes it for a part of a string is still within quotes
  behind it (`Formed.keeps`);
* `Formed.ne_append_equals` -- so no text of a value ends in an equation with another.
-/

namespace Lasso.Value

open Text (EndsNumber ToldApart endsNumber_cons endsNumber_nil quoteBytes_append_inj behind)

/-! ## 1. Numbers -/

theorem isDigit_of_mem_toDigits {n : Nat} {c : Char} (h : c ∈ Nat.toDigits 10 n) : c.isDigit = true :=
  Nat.isDigit_of_mem_toDigits (by decide) (by decide) h

theorem toldApart_toDigits (m n : Nat) : ToldApart (Nat.toDigits 10) m n := by
  intro r s hr hs h
  have hm := Text.takeWhile_append_stop (p := Char.isDigit) (fun _ => isDigit_of_mem_toDigits (n := m)) hr
  have hn := Text.takeWhile_append_stop (p := Char.isDigit) (fun _ => isDigit_of_mem_toDigits (n := n)) hs
  rw [h, hn] at hm
  have heq := congrArg (fun ds => Nat.ofDigitChars 10 ds 0) hm
  simp only [Nat.ofDigitChars_ten_toDigits] at heq
  subst heq
  exact ⟨rfl, List.append_cancel_left h⟩

theorem toList_toString_natCast (n : Nat) : (toString (n : Int)).toList = Nat.toDigits 10 n := by
  rw [Int.toString_eq_repr]
  exact Nat.toList_repr

theorem toList_toString_negSucc (n : Nat) :
    (toString (Int.negSucc n)).toList = '-' :: Nat.toDigits 10 (n + 1) := by
  show ("-" ++ Nat.repr (n + 1)).toList = _
  rw [String.toList_append, Nat.toList_repr]
  rfl

theorem head?_toDigits (n : Nat) : ∃ c ∈ (Nat.toDigits 10 n).head?, c.isDigit = true := by
  cases h : Nat.toDigits 10 n with
  | nil => exact absurd h Nat.toDigits_ne_nil
  | cons c cs => exact ⟨c, rfl, isDigit_of_mem_toDigits (n := n) (by simp [h])⟩

/-- A number that is not zero does not start with a zero. -/
theorem exists_toDigits_eq_cons {v : Nat} (hv : 0 < v) :
    ∃ d ds, Nat.toDigits 10 v = d :: ds ∧ d ≠ '0' ∧ d.isDigit = true := by
  induction v using Nat.strongRecOn with
  | ind v ih =>
    by_cases hlt : v < 10
    · have hall : ∀ k : Fin 10, 0 < k.val → k.val.digitChar ≠ '0' ∧ k.val.digitChar.isDigit = true := by decide
      exact ⟨_, [], Nat.toDigits_of_lt_base hlt, hall ⟨v, hlt⟩ hv⟩
    · obtain ⟨d, ds, hdigits, hd⟩ := ih (v / 10) (by omega) (by omega)
      rw [Nat.toDigits_of_base_le (by decide) (Nat.le_of_not_lt hlt), hdigits]
      exact ⟨d, _, rfl, hd⟩

theorem toDigits_append_ne {m n : Nat} {r s : List Char} :
    Nat.toDigits 10 m ++ r ≠ '-' :: Nat.toDigits 10 n ++ s := by
  intro h
  obtain ⟨c, hc, hd⟩ := head?_toDigits m
  have hhead := congrArg List.head? h
  rw [List.head?_append, Option.mem_def.mp hc] at hhead
  cases hhead
  exact absurd hd (by decide)

/-- **Decimal numbers can be told apart**, if no digit follows. -/
theorem toldApart_int (i j : Int) : ToldApart (fun k : Int => (toString k).toList) i j := by
  intro r s hr hs h
  simp only at h
  cases i with
  | ofNat m =>
    cases j with
    | ofNat n =>
      rw [Int.ofNat_eq_natCast, Int.ofNat_eq_natCast, toList_toString_natCast, toList_toString_natCast] at h
      obtain ⟨rfl, rfl⟩ := toldApart_toDigits m n hr hs h
      exact ⟨rfl, rfl⟩
    | negSucc n =>
      rw [Int.ofNat_eq_natCast, toList_toString_natCast, toList_toString_negSucc] at h
      exact absurd h toDigits_append_ne
  | negSucc m =>
    cases j with
    | ofNat n =>
      rw [Int.ofNat_eq_natCast, toList_toString_natCast, toList_toString_negSucc] at h
      exact absurd h.symm toDigits_append_ne
    | negSucc n =>
      rw [toList_toString_negSucc, toList_toString_negSucc] at h
      obtain ⟨e, rfl⟩ := toldApart_toDigits _ _ hr hs (List.cons.inj h).2
      cases e
      exact ⟨rfl, rfl⟩

/-! ## 2. Kinds -/

/-- The kind of a value whose text starts with the character. -/
def kindOf? (c : Char) : Option Kind :=
  if c.isDigit || c = '-' then some .int
  else if c = 't' || c = 'f' then some .bool
  else if c = '"' then some .string
  else if c = '<' then some .tuple
  else none

theorem text_tuple (p : Bytes) :
    text (.tuple p) = "<" ++ ", ".intercalate ((unpack p).map text) ++ ">" := by
  rw [text]
  simp

theorem exists_head?_text (v : Value) : ∃ c ∈ v.text.toList.head?, kindOf? c = some v.kind := by
  cases v with
  | int n =>
    rw [text]
    cases n.toInt with
    | ofNat k =>
      rw [Int.ofNat_eq_natCast, toList_toString_natCast]
      obtain ⟨c, hc, hd⟩ := head?_toDigits k
      exact ⟨c, hc, by rw [kindOf?, hd]; rfl⟩
    | negSucc k =>
      rw [toList_toString_negSucc]
      exact ⟨'-', rfl, rfl⟩
  | bool b =>
    rw [text]
    cases b with
    | false => exact ⟨'f', rfl, rfl⟩
    | true => exact ⟨'t', rfl, rfl⟩
  | str s =>
    rw [text, Text.toList_quoteBytes]
    exact ⟨'"', rfl, rfl⟩
  | tuple p =>
    rw [text_tuple, String.append_assoc, String.toList_append]
    exact ⟨'<', rfl, rfl⟩

theorem kind_eq_of_text {v w : Value} {r s : List Char}
    (h : v.text.toList ++ r = w.text.toList ++ s) : v.kind = w.kind := by
  obtain ⟨c, hc, hv⟩ := exists_head?_text v
  obtain ⟨d, hd, hw⟩ := exists_head?_text w
  have hhead := congrArg List.head? h
  rw [List.head?_append, List.head?_append, Option.mem_def.mp hc, Option.mem_def.mp hd] at hhead
  cases hhead
  exact Option.some.inj (hv.symm.trans hw)

/-! ## 3. Values -/

/-- The characters of a value's text. -/
def chars (v : Value) : List Char := v.text.toList

theorem chars_empty : chars (ofList []) = ['<', '>'] := by
  rw [chars, ofList, text_tuple, unpack_pack]
  rfl

theorem chars_ofList_cons (v : Value) (vs : List Value) :
    chars (ofList (v :: vs)) = '<' :: (chars v ++ behind [',', ' '] chars vs ++ ['>']) := by
  rw [chars, ofList, text_tuple, unpack_pack]
  simp only [String.toList_append, String.toList_intercalate, List.map_cons, Text.intercalate_cons]
  simp [behind, chars, List.flatMap_map]

theorem endsNumber_behind_elements (vs : List Value) (r : List Char) :
    EndsNumber (behind [',', ' '] chars vs ++ '>' :: r) := Text.endsNumber_behind (by decide) (by decide) vs r

theorem chars_append_ne (v : Value) (r s : List Char) : chars v ++ r ≠ '>' :: s := by
  intro h
  obtain ⟨c, hc, hk⟩ := exists_head?_text v
  have hhead := congrArg List.head? h
  rw [chars, List.head?_append, Option.mem_def.mp hc] at hhead
  cases hhead
  cases hk

/-- **The texts of values can be told apart**, if no digit follows. The induction is on how the one value is
    built; the first character shows that the other is of the same kind. -/
theorem Formed.toldApart {v w : Value} (hv : v.Formed) (hw : w.Formed) : ToldApart chars v w := by
  induction hv generalizing w with
  | int n =>
    intro r s hr hs h
    have hkind := kind_eq_of_text h
    cases hw with
    | int m =>
      simp only [chars, text] at h
      obtain ⟨e, rfl⟩ := toldApart_int _ _ hr hs h
      exact ⟨congrArg Value.int (Int64.toInt_inj.mp e), rfl⟩
    | _ => cases hkind
  | bool b =>
    intro r s hr hs h
    have hkind := kind_eq_of_text h
    cases hw with
    | bool d =>
      simp only [chars, text] at h
      cases b <;> cases d
      · exact ⟨rfl, List.append_cancel_left h⟩
      · cases (List.cons.inj h).1
      · cases (List.cons.inj h).1
      · exact ⟨rfl, List.append_cancel_left h⟩
    | _ => cases hkind
  | str b =>
    intro r s hr hs h
    have hkind := kind_eq_of_text h
    cases hw with
    | str d =>
      simp only [chars, text] at h
      obtain ⟨rfl, rfl⟩ := quoteBytes_append_inj h
      exact ⟨rfl, rfl⟩
    | _ => cases hkind
  | tuple vs hvs ih =>
    intro r s hr hs h
    have hkind := kind_eq_of_text h
    cases hw with
    | tuple ws hws =>
      cases vs with
      | nil =>
        cases ws with
        | nil => exact ⟨rfl, List.append_cancel_left h⟩
        | cons w ws =>
          simp only [chars_empty, chars_ofList_cons, List.cons_append, List.append_assoc, List.cons.injEq,
            true_and, List.nil_append] at h
          exact absurd h.symm (chars_append_ne w _ _)
      | cons v vs =>
        cases ws with
        | nil =>
          simp only [chars_empty, chars_ofList_cons, List.cons_append, List.append_assoc, List.cons.injEq,
            true_and, List.nil_append] at h
          exact absurd h (chars_append_ne v _ _)
        | cons w ws =>
          simp only [chars_ofList_cons, List.cons_append, List.append_assoc, List.cons.injEq,
            true_and, List.nil_append] at h
          obtain ⟨rfl, hrest⟩ := ih v List.mem_cons_self (hws w List.mem_cons_self)
            (endsNumber_behind_elements vs r) (endsNumber_behind_elements ws s) h
          obtain ⟨rfl, rfl⟩ := Text.eq_of_parted (by decide) (by decide) (by decide)
            (fun a ha b hb => ih a (List.mem_cons_of_mem _ ha) (hws b (List.mem_cons_of_mem _ hb))) hrest
          exact ⟨rfl, rfl⟩
    | _ => cases hkind

/-- **Values with the same text are the same**, of whatever kinds they are. -/
theorem Formed.text_inj {v w : Value} (hv : v.Formed) (hw : w.Formed) : v.text = w.text ↔ v = w := by
  refine ⟨fun h => ?_, fun h => h ▸ rfl⟩
  refine (hv.toldApart hw endsNumber_nil endsNumber_nil ?_).1
  rw [chars, chars, h]

/-! ## 4. Outside of quotes and within -/

/-- Where a reader of a text stands. -/
inductive Side where
  | outside
  | within
  /-- Within quotes, behind a backslash. -/
  | behind
  deriving DecidableEq

namespace Side

/-- The side behind a character. Outside of quotes there is no backslash and no equals sign. -/
def next? : Side → Char → Option Side
  | .outside, c => if c = '"' then some .within else if c = '\\' ∨ c = '=' then none else some .outside
  | .within, c => if c = '"' then some .outside else if c = '\\' then some .behind else some .within
  | .behind, _ => some .within

/-- The side behind a text. -/
def after? (q : Side) (cs : List Char) : Option Side := cs.foldlM next? q

theorem after?_append (q : Side) (cs ds : List Char) :
    q.after? (cs ++ ds) = (q.after? cs).bind fun q => q.after? ds := List.foldlM_append ..

theorem after?_cons (q : Side) (c : Char) (cs : List Char) :
    q.after? (c :: cs) = (q.next? c).bind fun q => q.after? cs := List.foldlM_cons ..

/-- Read from one side the text leads back to it, and read from the other it leads nowhere else either. -/
structure Keeps (q r : Side) (cs : List Char) : Prop where
  here : q.after? cs = some q
  there : ∀ r' ∈ r.after? cs, r' = r

variable {q r : Side} {cs ds : List Char}

theorem Keeps.nil : Keeps q r [] := ⟨rfl, fun _ h => (Option.some.inj h).symm⟩

theorem Keeps.append (hc : Keeps q r cs) (hd : Keeps q r ds) : Keeps q r (cs ++ ds) where
  here := by rw [after?_append, hc.here, Option.bind_some, hd.here]
  there r' h := by
    rw [after?_append, Option.mem_def, Option.bind_eq_some_iff] at h
    obtain ⟨r₁, h₁, h⟩ := h
    rw [hc.there r₁ h₁] at h
    exact hd.there r' h

theorem Keeps.flatMap {α : Type} {f : α → List Char} {as : List α} (h : ∀ a ∈ as, Keeps q r (f a)) :
    Keeps q r (as.flatMap f) := by
  induction as with
  | nil => exact .nil
  | cons a as ih =>
    rw [List.flatMap_cons]
    exact (h a List.mem_cons_self).append (ih fun b hb => h b (List.mem_cons_of_mem _ hb))

/-- A character that changes no side. -/
def isPlain (c : Char) : Bool := c ≠ '"' && c ≠ '\\' && c ≠ '='

theorem keeps_plain (h : cs.all isPlain = true) : Keeps .outside .within cs := by
  induction cs with
  | nil => exact .nil
  | cons c cs ih =>
    obtain ⟨hc, hcs⟩ : isPlain c = true ∧ cs.all isPlain = true := by simpa using h
    have hone : Keeps .outside .within [c] := by
      simp only [isPlain, ne_eq, Bool.and_eq_true, decide_eq_true_eq] at hc
      constructor
      · simp [after?, next?, hc]
      · simp [after?, next?, hc]
    exact hone.append (ih hcs)

theorem after?_within_digits (h : ∀ d ∈ cs, (Lang.hexValue? d).isSome = true) :
    within.after? cs = some .within := by
  induction cs with
  | nil => rfl
  | cons d cs ih =>
    have hd := h d List.mem_cons_self
    have hquote : d ≠ '"' := by
      rintro rfl
      cases hd
    have hslash : d ≠ '\\' := by
      rintro rfl
      cases hd
    rw [after?_cons, next?, if_neg hquote, if_neg hslash]
    exact ih fun e he => h e (List.mem_cons_of_mem _ he)

/-- What is written for one position of a string does not leave the quotes. Read from outside of quotes it
    is refused, or leads nowhere else. -/
theorem keeps_quoteUnit (u : Bytes.Unit) : Keeps .within .outside (Text.quoteUnit u) := by
  rcases Text.quoteUnit_cases u with ⟨c, e, -, hquote, hslash⟩ | ⟨x, ds, e, -, hds⟩
  · rw [e]
    constructor
    · simp [after?, next?, hquote, hslash]
    · by_cases hequals : c = '='
      · simp [after?, next?, hequals]
      · simp [after?, next?, hquote, hslash, hequals]
  · rw [e]
    constructor
    · calc within.after? ('\\' :: x :: ds)
        _ = within.after? ds := rfl
        _ = some .within := after?_within_digits hds
    · intro q h
      cases h

/-- **A quoted form leads from outside of quotes to outside**, through its two quotes. -/
theorem keeps_quoteBytes (b : Bytes) : Keeps .outside .within (Text.quoteBytes b).toList := by
  have hinner : Keeps .within .outside (b.units.flatMap Text.quoteUnit) :=
    .flatMap fun u _ => keeps_quoteUnit u
  rw [Text.toList_quoteBytes]
  constructor
  · rw [after?_cons, next?, if_pos rfl, Option.bind_some, after?_append, hinner.here]
    rfl
  · intro r h
    rw [after?_cons, next?, if_pos rfl, Option.bind_some, after?_append, Option.mem_def,
      Option.bind_eq_some_iff] at h
    obtain ⟨q, hq, h⟩ := h
    rw [hinner.there q hq] at h
    exact (Option.some.inj h).symm

end Side

open Side

theorem isPlain_of_isDigit {c : Char} (h : c.isDigit = true) : isPlain c = true := by
  rw [isPlain, Bool.and_eq_true, Bool.and_eq_true]
  refine ⟨⟨decide_eq_true ?_, decide_eq_true ?_⟩, decide_eq_true ?_⟩
  all_goals
    rintro rfl
    cases h

theorem keeps_toDigits (n : Nat) : Keeps .outside .within (Nat.toDigits 10 n) :=
  keeps_plain (List.all_eq_true.mpr fun _ h => isPlain_of_isDigit (isDigit_of_mem_toDigits h))

theorem keeps_int (i : Int) : Keeps .outside .within (toString i).toList := by
  cases i with
  | ofNat n =>
    rw [Int.ofNat_eq_natCast, toList_toString_natCast]
    exact keeps_toDigits n
  | negSucc n =>
    rw [toList_toString_negSucc]
    have hminus : Keeps .outside .within ['-'] := keeps_plain rfl
    exact hminus.append (keeps_toDigits _)

/-- **The text of a value leads from outside of quotes to outside.** -/
theorem Formed.keeps {v : Value} (h : v.Formed) : Keeps .outside .within v.chars := by
  induction h with
  | int n =>
    rw [chars, text]
    exact keeps_int n.toInt
  | bool b =>
    rw [chars, text]
    cases b with
    | false => exact keeps_plain rfl
    | true => exact keeps_plain rfl
  | str s =>
    rw [chars, text]
    exact keeps_quoteBytes s
  | tuple vs _ ih =>
    cases vs with
    | nil =>
      rw [chars_empty]
      exact keeps_plain rfl
    | cons v vs =>
      have hmarks : Keeps .outside .within [',', ' '] := keeps_plain rfl
      have hbehind : Keeps .outside .within (Text.behind [',', ' '] chars vs) :=
        .flatMap fun w hw => hmarks.append (ih w (List.mem_cons_of_mem _ hw))
      have hopen : Keeps .outside .within ['<'] := keeps_plain rfl
      have hclose : Keeps .outside .within ['>'] := keeps_plain rfl
      rw [chars_ofList_cons]
      exact hopen.append (((ih v List.mem_cons_self).append hbehind).append hclose)

/-- **No text of a value ends in an equation with another value.** The equals sign would stand within
    quotes, and so would the end of the text. -/
theorem Formed.ne_append_equals {v w : Value} (hv : v.Formed) (hw : w.Formed) (r : List Char) :
    v.chars ≠ r ++ ([' ', '=', ' '] ++ w.chars) := by
  intro h
  have hend := hv.keeps.here
  rw [h, after?_append, Option.bind_eq_some_iff] at hend
  obtain ⟨q, -, hend⟩ := hend
  have hwithin : Side.within.after? w.chars = some .outside := by
    cases q with
    | outside => cases hend
    | within => exact hend
    | behind => exact hend
  cases hw.keeps.there _ hwithin

end Lasso.Value
