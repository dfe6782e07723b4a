import Atp.LexicalCast

/-!
One field of a log line, split into a name and a value at the position that an `int`
holds of what `find` returns.
-/

namespace Atp.FieldSplit

/-- What the split of one field ends in, where it has no name and value. -/
inductive Failure where
  | outOfRange
  | overflow
deriving DecidableEq

/-- `itr->find(nvDelim)` as an `int`; `npos` becomes -1. -/
def find (field : Text) (nvDelim : Char) : Int32 :=
  if nvDelim ∈ field then Int32.ofNat (field.idxOf nvDelim) else -1

/-- `std::string::substr`.  A negative argument becomes a `size_t` beyond the end of
every string. -/
def substr (s : Text) (pos n : Int) : Except Failure Text :=
  if 0 ≤ pos ∧ pos ≤ s.length then
    .ok ((s.drop pos.toNat).take (if n < 0 then s.length else n.toNat))
  else .error .outOfRange

/-- `sep + 1`; an overflow of an `int` has no value. -/
def next (sep : Int32) : Except Failure Int :=
  if sep.toInt = 2147483647 then .error .overflow else .ok (sep.toInt + 1)

def splitPair (nvDelim : Char) (field : Text) : Except Failure (Text × Text) := do
  let sep := find field nvDelim
  let key ← substr field 0 sep.toInt
  let val ← substr field (← next sep) (field.length - sep.toInt)
  .ok (key, val)

/-! ### What the split gives -/

theorem substr_self (s : Text) {n : Int} (hn : s.length ≤ n ∨ n < 0) :
    substr s 0 n = .ok s := by
  rw [substr, if_pos ⟨Int.le_refl 0, Int.natCast_nonneg _⟩]
  refine congrArg Except.ok ?_
  change List.take _ s = s
  apply List.take_of_length_le
  split_ifs <;> omega

theorem splitPair_of_not_mem {nvDelim : Char} {field : Text} (hmem : nvDelim ∉ field) :
    splitPair nvDelim field = .ok (field, field) := by
  have hfind : find field nvDelim = -1 := if_neg hmem
  have hnext : next (-1) = .ok 0 := rfl
  have hvalue : substr field 0 (field.length - (-1 : Int32).toInt) = .ok field := by
    refine substr_self field (.inl ?_)
    change _ ≤ _ - (-1 : Int)
    omega
  have hkey : substr field 0 (-1 : Int32).toInt = .ok field :=
    substr_self field (.inr (by decide))
  rw [splitPair, hfind, hkey]
  simp only [hnext, bind, Except.bind, hvalue]

theorem substr_prefix (a b : Text) : substr (a ++ b) 0 a.length = .ok a := by
  rw [substr, if_pos ⟨Int.le_refl 0, Int.natCast_nonneg _⟩, if_neg (by omega)]
  exact congrArg Except.ok List.take_left

theorem substr_suffix (a b : Text) {n : Int} (hn : b.length ≤ n) :
    substr (a ++ b) a.length n = .ok b := by
  have hpos : (0 : Int) ≤ a.length ∧ (a.length : Int) ≤ (a ++ b).length := by
    rw [List.length_append]
    omega
  rw [substr, if_pos hpos, if_neg (by omega)]
  refine congrArg Except.ok ?_
  rw [Int.toNat_natCast, List.drop_left]
  exact List.take_of_length_le (by omega)

theorem find_append {nvDelim : Char} {name : Text} (hname : nvDelim ∉ name) (value : Text) :
    find (name ++ nvDelim :: value) nvDelim = Int32.ofNat name.length := by
  rw [find, if_pos (List.mem_append_right _ List.mem_cons_self),
    List.idxOf_append_of_notMem hname, List.idxOf_cons_self, Nat.add_zero]

theorem splitPair_append {nvDelim : Char} {name : Text} (hname : nvDelim ∉ name) (value : Text)
    (hshort : name.length < 2147483647) :
    splitPair nvDelim (name ++ nvDelim :: value) = .ok (name, value) := by
  have hfind : (find (name ++ nvDelim :: value) nvDelim).toInt = name.length := by
    rw [find_append hname]
    exact Int32.toInt_ofNat_of_lt (by omega)
  have hnext : next (find (name ++ nvDelim :: value) nvDelim) =
      .ok ((name ++ [nvDelim]).length : Int) := by
    rw [next, hfind, if_neg (by omega), List.length_append, List.length_singleton]
    rfl
  have hvalue : substr (name ++ nvDelim :: value) (name ++ [nvDelim]).length
      ((name ++ nvDelim :: value).length - name.length) = .ok value := by
    rw [List.append_cons]
    refine substr_suffix _ _ ?_
    simp only [List.length_append]
    omega
  rw [splitPair, hfind, substr_prefix]
  simp only [hnext, bind, Except.bind, hvalue]

/-- A field that has a delimiter does not give a long name: the name ends before the
position wraps, or it is the whole field. -/
theorem name_of_splitPair {nvDelim : Char} {field : Text} {p : Text × Text}
    (hmem : nvDelim ∈ field) (hsplit : splitPair nvDelim field = .ok p) :
    p.1.length < 2147483647 ∨ nvDelim ∈ p.1 := by
  obtain ⟨key, hkey, hrest⟩ := ok_of_bind hsplit
  obtain ⟨pos, hnext, hrest⟩ := ok_of_bind hrest
  obtain ⟨val, -, hpair⟩ := ok_of_bind hrest
  obtain rfl := Except.ok.inj hpair
  have hle : (find field nvDelim).toInt < 2147483647 := by
    unfold next at hnext
    split_ifs at hnext with hmax
    have hrange : (find field nvDelim).toInt < 2147483648 := (find field nvDelim).toInt_lt
    omega
  rw [substr, if_pos ⟨Int.le_refl 0, Int.natCast_nonneg _⟩, Except.ok.injEq] at hkey
  change List.take _ field = key at hkey
  split_ifs at hkey with hneg
  · rw [List.take_length] at hkey
    exact .inr (hkey ▸ hmem)
  · left
    rw [← hkey, List.length_take]
    omega

/-- A position beyond the range of an `int` becomes one before the field. -/
theorem splitPair_of_long {nvDelim : Char} {name : Text} (hname : nvDelim ∉ name) (value : Text)
    (hlong : 2147483648 ≤ name.length ∧ name.length < 4294967295) :
    splitPair nvDelim (name ++ nvDelim :: value) = .error .outOfRange := by
  have hfind : (find (name ++ nvDelim :: value) nvDelim).toInt = name.length - 4294967296 := by
    have hsize : (Int32.size : Int) = 4294967296 := rfl
    rw [find_append hname, Int32.toInt_ofNat', Int.bmod, hsize]
    split_ifs <;> omega
  have hnext : next (find (name ++ nvDelim :: value) nvDelim) =
      .ok (name.length - 4294967296 + 1) := by
    rw [next, hfind, if_neg (by omega)]
  have hkey : substr (name ++ nvDelim :: value) 0 (name.length - 4294967296) =
      .ok (name ++ nvDelim :: value) :=
    substr_self _ (.inr (by omega))
  have hvalue : ∀ n, substr (name ++ nvDelim :: value) (name.length - 4294967296 + 1) n =
      .error .outOfRange := fun n => if_neg (by omega)
  rw [splitPair, hfind, hkey]
  simp only [hnext, bind, Except.bind, hvalue]

theorem mem_of_substr {s r : Text} {pos n : Int} (hr : substr s pos n = .ok r) {c : Char}
    (hc : c ∈ r) : c ∈ s := by
  rw [substr] at hr
  split_ifs at hr
  · obtain rfl := Except.ok.inj hr
    exact List.mem_of_mem_drop (List.mem_of_mem_take hc)
  · obtain rfl := Except.ok.inj hr
    exact List.mem_of_mem_drop (List.mem_of_mem_take hc)

/-- The name and the value are made of characters of the field. -/
theorem mem_of_splitPair {nvDelim : Char} {field : Text} {p : Text × Text}
    (hsplit : splitPair nvDelim field = .ok p) {c : Char} (hc : c ∈ p.1 ∨ c ∈ p.2) :
    c ∈ field := by
  obtain ⟨key, hkey, hrest⟩ := ok_of_bind hsplit
  obtain ⟨pos, -, hrest⟩ := ok_of_bind hrest
  obtain ⟨val, hval, hpair⟩ := ok_of_bind hrest
  obtain rfl := Except.ok.inj hpair
  rcases hc with hc | hc
  · exact mem_of_substr hkey hc
  · exact mem_of_substr hval hc

end Atp.FieldSplit
