import Atp.TickerCode

/-!
The ids of options of one symbol at any strikes.  The strike is added to the middle of
a block of 2048 ids and the fraction dropped, so fractions are lost, and a high strike
leads into the block of another symbol.
-/

namespace Atp.OptionStrikes

open Double TickerCode

structure Strike where
  amount : Double
  isFinite : amount.isFinite = true
  pos : 0 < amount.value

/-- An option of a symbol that is given. -/
structure SymbolOption where
  isCallOption : Bool
  strike : Strike

def idOf (s : Symbol) (o : SymbolOption) : Option Int :=
  optionToTickerId s.text o.isCallOption o.strike.amount

def SameOption (o p : SymbolOption) : Prop :=
  o.isCallOption = p.isCallOption ∧ o.strike.amount.value = p.strike.amount.value

def Decodes (s : Symbol) (o : SymbolOption) : Prop :=
  ∃ id option, idOf s o = some id ∧ encodedOptionFromTickerId id = some option ∧
    option.symbol = upper s.text

/-- Both options have ids that decode to the symbol, and different options have
different ids. -/
def Unique (s : Symbol) (o p : SymbolOption) : Prop :=
  Decodes s o ∧ Decodes s p ∧ (idOf s o = idOf s p → SameOption o p)

/-- Where the option lies among the ids, before the fraction is dropped. -/
def place (s : Symbol) (o : SymbolOption) : ℚ :=
  symbolValue s.text * 2 ^ 11 + 1024 + (if o.isCallOption then 1 else -1) * o.strike.amount.value

/-- The four digits of a block of ids in base 27, the first of which may be larger. -/
def blockDigits (block : Nat) : List Nat :=
  [block / 27 ^ 3, block / 27 ^ 2 % 27, block / 27 % 27, block % 27]

/-- The option lies in a block whose digits are those of the symbol, and zeros. -/
def Fits (s : Symbol) (o : SymbolOption) : Prop :=
  ∃ block : Nat, block < 2 ^ 20 ∧ wholePart (place s o) / 2 ^ 11 = block ∧
    (blockDigits block).filter (0 < ·) = s.text.map digit

/-! ### Blocks and their letters -/

def letter (d : Nat) : Char := Char.ofNat (d + 64)

theorem toNat_letter {d : Nat} (hd : d < 64) : (letter d).toNat = d + 64 := by
  revert d
  decide

theorem map_letter_digit (s : Symbol) : (s.text.map digit).map letter = upper s.text := by
  rw [List.map_map, upper]
  exact List.map_congr_left fun c hc => ofNat_digit (s.isAlpha c hc)

theorem map_letter_inj {xs ys : List Nat} (hxs : ∀ d ∈ xs, d < 64) (hys : ∀ d ∈ ys, d < 64) :
    xs.map letter = ys.map letter ↔ xs = ys := by
  have hback : ∀ {zs : List Nat}, (∀ d ∈ zs, d < 64) →
      (zs.map letter).map (fun c => c.toNat - 64) = zs := by
    intro zs hzs
    rw [List.map_map, List.map_congr_left, List.map_id]
    intro d hd
    simp [toNat_letter (hzs d hd)]
  constructor
  · intro heq
    rw [← hback hxs, heq, hback hys]
  · exact congrArg _

theorem letters_cons (scale m : Nat) (scales : List Int) :
    letters (scale :: scales) m =
      (if 0 < m / scale then [letter (m / scale)] else []) ++ letters scales (m % scale : Nat) := by
  have hdiv : (m : Int).tdiv scale = (m / scale : Nat) := Int.ofNat_tdiv m scale
  have hmod : (m : Int).tmod scale = (m % scale : Nat) := Int.ofNat_tmod m scale
  have hA : 'A'.toNat = 65 := by decide
  rw [letters, hdiv, hmod]
  congr 1
  by_cases hpos : 0 < m / scale
  · have hvalue : (((m / scale : Nat) : Int) + 'A'.toNat - 1).toNat = m / scale + 64 := by
      rw [hA]
      omega
    rw [if_pos hpos, if_pos (by exact_mod_cast hpos), hvalue]
    rfl
  · rw [if_neg hpos, if_neg (by exact_mod_cast hpos)]

theorem map_filter_eq_flatMap (xs : List Nat) :
    (xs.filter (0 < ·)).map letter = xs.flatMap fun d => if 0 < d then [letter d] else [] := by
  induction xs with
  | nil => rfl
  | cons d xs ih =>
      rw [List.flatMap_cons, ← ih]
      by_cases hd : 0 < d
      · rw [List.filter_cons_of_pos (by simpa using hd), if_pos hd]
        rfl
      · rw [List.filter_cons_of_neg (by simpa using hd), if_neg hd]
        rfl

theorem letters_block (block : Nat) :
    letters SCALE.reverse block = ((blockDigits block).filter (0 < ·)).map letter := by
  have hscale : SCALE.reverse = [((27 ^ 3 : Nat) : Int), (27 ^ 2 : Nat), (27 : Nat), (1 : Nat)] :=
    rfl
  have h2 : block % 27 ^ 3 / 27 ^ 2 = block / 27 ^ 2 % 27 := by omega
  have h1 : block % 27 ^ 3 % 27 ^ 2 / 27 = block / 27 % 27 := by omega
  have h0 : block % 27 ^ 3 % 27 ^ 2 % 27 / 1 = block % 27 := by omega
  rw [hscale, letters_cons, letters_cons, letters_cons, letters_cons, h2, h1, h0,
    map_filter_eq_flatMap]
  simp [blockDigits, letters]

theorem letters_block_eq_iff {s : Symbol} {block : Nat} (hblock : block < 2 ^ 20) :
    letters SCALE.reverse block = upper s.text ↔
      (blockDigits block).filter (0 < ·) = s.text.map digit := by
  rw [letters_block, ← map_letter_digit]
  refine map_letter_inj ?_ ?_
  · intro d hd
    have hmem := List.mem_of_mem_filter hd
    simp only [blockDigits, List.mem_cons, List.not_mem_nil, or_false] at hmem
    omega
  · intro d hd
    obtain ⟨c, hc, rfl⟩ := List.mem_map.mp hd
    have hlt := digit_lt (s.isAlpha c hc)
    omega

theorem letters_of_nonpos {scales : List Int} (hscales : ∀ scale ∈ scales, 0 < scale) {m : Int}
    (hm : m ≤ 0) : letters scales m = [] := by
  induction scales generalizing m with
  | nil => rfl
  | cons scale scales ih =>
      rw [List.forall_mem_cons] at hscales
      have hdiv : 0 ≤ (-m).tdiv scale := Int.tdiv_nonneg (by omega) hscales.1.le
      have hmod : 0 ≤ (-m).tmod scale := Int.tmod_nonneg scale (by omega)
      rw [Int.neg_tdiv] at hdiv
      rw [Int.neg_tmod] at hmod
      rw [letters, if_neg (by omega), ih hscales.2 (by omega)]
      rfl

theorem encodedOptionFromTickerId_symbol (id : Int) : ∃ option,
    encodedOptionFromTickerId id = some option ∧
      option.symbol = letters SCALE.reverse (id / 2 ^ OFFSET) := by
  have hbound : (if id - id / 2 ^ OFFSET * 2 ^ OFFSET - MID > 0 then
      id - id / 2 ^ OFFSET * 2 ^ OFFSET - MID
    else -1 * (id - id / 2 ^ OFFSET * 2 ^ OFFSET - MID)).natAbs < 2 ^ 53 := by
    unfold OFFSET MID OFFSET
    split_ifs <;> omega
  obtain ⟨strike, hstrike, -⟩ := exists_nearest_intCast hbound
  have hmask : id / 2 ^ OFFSET * 2 ^ OFFSET / 2 ^ OFFSET = id / 2 ^ OFFSET := by
    unfold OFFSET
    omega
  unfold encodedOptionFromTickerId
  dsimp only
  rw [hstrike, Option.bind_eq_bind, Option.bind_some]
  refine ⟨_, rfl, ?_⟩
  dsimp only
  rw [symbolFromTickerId, hmask]

/-! ### Where an option lies -/

section

variable (s : Symbol) (o : SymbolOption)

theorem idOf_eq :
    idOf s o = (nearest (place s o)).bind fun sum => int (truncate sum.value) := by
  have hsum : ((symbolValue s.text * (2 ^ OFFSET : Int) + MID : Int) : ℚ) +
      (if o.isCallOption then 1 else -1) * o.strike.amount.value = place s o := by
    rw [place, OFFSET, MID, OFFSET]
    push_cast
    rfl
  rw [idOf, optionToTickerId, symbolToTickerId_eq, Option.bind_eq_bind, Option.bind_some,
    if_pos o.strike.isFinite, hsum, Option.bind_eq_bind]

variable {s o}

theorem int_of_le {v : Int} (hv : 2 ^ 31 ≤ v) : int v = none := if_neg (by omega)

theorem le_wholePart (q : ℚ) : ⌊q⌋ ≤ wholePart q :=
  Int.floor_le_floor (le_add_of_nonneg_right (halfUlp_nonneg q))

theorem idOf_of_one_le (hplace : 1 ≤ place s o) : idOf s o = int (wholePart (place s o)) := by
  rw [idOf_eq]
  rcases lt_or_ge (place s o) (2 ^ 52) with hlt | hge
  · obtain ⟨sum, hsum, htruncate⟩ := truncate_nearest hplace hlt
    rw [hsum, Option.bind_some, htruncate]
  · have hfloor : 2 ^ 52 ≤ ⌊place s o⌋ := Int.le_floor.mpr (by exact_mod_cast hge)
    have hwhole := le_wholePart (place s o)
    rw [int_of_le (by omega)]
    cases hsum : nearest (place s o) with
    | none => rfl
    | some sum =>
        obtain ⟨hbound, -⟩ := value_bounds (zero_le_one.trans hplace) hsum
        have hvalue : (2 : ℚ) ^ 31 ≤ sum.value := by linarith
        have htruncate : 2 ^ 31 ≤ truncate sum.value := by
          rw [truncate_of_nonneg (le_trans (by positivity) hvalue)]
          exact Int.le_floor.mpr (by exact_mod_cast hvalue)
        exact int_of_le htruncate

theorem idOf_of_lt_one (hplace : place s o < 1) {id : Int} (hid : idOf s o = some id) :
    id ≤ 2 := by
  rw [idOf_eq] at hid
  obtain ⟨sum, hsum, hint⟩ := Option.bind_eq_some_iff.mp hid
  unfold int at hint
  split_ifs at hint
  obtain rfl := Option.some.inj hint
  rcases lt_or_ge (place s o) 0 with hneg | hnonneg
  · have hvalue := value_nonpos hneg hsum
    have hnum : sum.value.num ≤ 0 := Rat.num_nonpos.mpr hvalue
    have htruncate : 0 ≤ (-sum.value.num).tdiv sum.value.den :=
      Int.tdiv_nonneg (by omega) (Int.natCast_nonneg _)
    rw [Int.neg_tdiv] at htruncate
    unfold truncate
    omega
  · obtain ⟨-, hbound⟩ := value_bounds hnonneg hsum
    have hnonneg' : 0 ≤ sum.value := by
      rw [value_of_nearest hnonneg hsum]
      exact div_nonneg (Nat.cast_nonneg _) (Nat.cast_nonneg _)
    rw [truncate_of_nonneg hnonneg']
    have hvalue : sum.value < 3 := by linarith
    have hfloor : ⌊sum.value⌋ < 3 := Int.floor_lt.mpr (by exact_mod_cast hvalue)
    omega

theorem wholePart_of_lt_one {q : ℚ} (hq : q < 1) : wholePart q ≤ 1 := by
  have hfloor : ⌊q⌋₊ = 0 := Nat.floor_eq_zero.mpr hq
  have hhalf : halfUlp q < 1 := by
    rw [halfUlp, hfloor]
    norm_num
  have hlt : ⌊q + halfUlp q⌋ < 2 := Int.floor_lt.mpr (by push_cast; linarith)
  unfold wholePart
  omega

theorem upper_ne_nil (s : Symbol) : upper s.text ≠ [] := by
  have hpos := s.length_pos
  exact List.ne_nil_of_length_pos (by rwa [upper, List.length_map])

/-- The id of an option is the whole part of its place. -/
theorem idOf_of_fits (hfits : Fits s o) : idOf s o = some (wholePart (place s o)) := by
  obtain ⟨block, hblock, hwhole, hdigits⟩ := hfits
  have hplace : 1 ≤ place s o := by
    by_contra hlt
    have hle := wholePart_of_lt_one (not_le.mp hlt)
    obtain rfl : block = 0 := by omega
    have hlength := congrArg List.length hdigits
    rw [List.length_map] at hlength
    have hpos := s.length_pos
    rw [← hlength] at hpos
    exact absurd hpos (by decide)
  rw [idOf_of_one_le hplace]
  exact int_eq (by omega) (by omega)

theorem decodes_iff_fits : Decodes s o ↔ Fits s o := by
  constructor
  · rintro ⟨id, option, hid, hoption, hsymbol⟩
    obtain ⟨option', hoption', hsymbol'⟩ := encodedOptionFromTickerId_symbol id
    obtain rfl := Option.some.inj (hoption.symm.trans hoption')
    rw [hsymbol] at hsymbol'
    have hscale : ∀ scale ∈ SCALE.reverse, 0 < scale := by decide
    have hblock : 0 < id / 2 ^ OFFSET := by
      by_contra hnonpos
      rw [letters_of_nonpos hscale (not_lt.mp hnonpos)] at hsymbol'
      exact upper_ne_nil s hsymbol'
    unfold OFFSET at hblock hsymbol'
    have hplace : 1 ≤ place s o := by
      by_contra hlt
      have hle := idOf_of_lt_one (not_le.mp hlt) hid
      omega
    rw [idOf_of_one_le hplace] at hid
    unfold int at hid
    split_ifs at hid with hrange
    obtain rfl := Option.some.inj hid
    obtain ⟨block, hblock'⟩ := Int.eq_ofNat_of_zero_le hblock.le
    rw [hblock'] at hsymbol'
    have hlt : block < 2 ^ 20 := by omega
    exact ⟨block, hlt, hblock', (letters_block_eq_iff hlt).mp hsymbol'.symm⟩
  · intro hfits
    have hid := idOf_of_fits hfits
    obtain ⟨block, hblock, hwhole, hdigits⟩ := hfits
    obtain ⟨option, hoption, hsymbol⟩ :=
      encodedOptionFromTickerId_symbol (wholePart (place s o))
    refine ⟨_, option, hid, hoption, ?_⟩
    rw [hsymbol]
    unfold OFFSET
    rw [hwhole]
    exact (letters_block_eq_iff hblock).mpr hdigits

end

theorem halfUlp_lt_one {q : ℚ} (hq : q < 2 ^ 52) : halfUlp q < 1 := by
  have hfloor : ⌊q⌋₊ < 2 ^ 52 := (Nat.floor_lt' (by decide)).mpr (by exact_mod_cast hq)
  have hlog : Nat.log2 ⌊q⌋₊ < 53 := by
    rcases Nat.eq_zero_or_pos ⌊q⌋₊ with hzero | hpos
    · rw [hzero]
      decide
    · exact (Nat.log2_lt hpos.ne').mpr (hfloor.trans (by decide))
  have hpow : (2 : ℚ) ^ Nat.log2 ⌊q⌋₊ < 2 ^ 53 := pow_lt_pow_right₀ (by norm_num) hlog
  rw [halfUlp]
  exact (div_lt_one (by norm_num)).mpr hpow

/-- Strikes up to 1023 stay in the block of the symbol. -/
theorem fits_of_le {s : Symbol} {o : SymbolOption} (hstrike : o.strike.amount.value ≤ 1023) :
    Fits s o := by
  have hvalue := symbolValue_text_lt s
  have hpos := o.strike.pos
  have hcast : (symbolValue s.text : ℚ) + 1 ≤ 531441 := by exact_mod_cast hvalue
  obtain ⟨hlow, hhigh⟩ : symbolValue s.text * 2 ^ 11 + 1 ≤ place s o ∧
      place s o ≤ symbolValue s.text * 2 ^ 11 + 2047 := by
    unfold place
    split_ifs
    · constructor
      · linarith
      · linarith
    · constructor
      · linarith
      · linarith
  have hhalf : halfUlp (place s o) < 1 := halfUlp_lt_one (by linarith)
  have hwholeLow : (symbolValue s.text : Int) * 2 ^ 11 ≤ wholePart (place s o) := by
    refine (Int.le_floor.mpr ?_).trans (le_wholePart (place s o))
    push_cast
    linarith
  have hwholeHigh : wholePart (place s o) < (symbolValue s.text + 1 : Int) * 2 ^ 11 := by
    refine Int.floor_lt.mpr ?_
    push_cast
    linarith
  refine ⟨symbolValue s.text, by omega, by omega, ?_⟩
  apply (letters_block_eq_iff (by omega)).mp
  exact letters_symbolValue s.isAlpha le_rfl s.length_le

/-- Two options of a symbol are told apart and lead back to it if and only if both lie
in blocks with its digits, and they are the same or different in their whole part. -/
theorem unique_iff (s : Symbol) (o p : SymbolOption) :
    Unique s o p ↔ Fits s o ∧ Fits s p ∧
      (SameOption o p ∨ wholePart (place s o) ≠ wholePart (place s p)) := by
  rw [Unique, decodes_iff_fits, decodes_iff_fits]
  refine and_congr_right fun ho => and_congr_right fun hp => ?_
  rw [idOf_of_fits ho, idOf_of_fits hp, Option.some.injEq, imp_iff_not_or, or_comm]

def ford : Symbol where
  text := ['F']
  isAlpha := List.forall_mem_singleton.mpr rfl
  length_pos := by decide
  length_le := by decide

def callAt (bits : UInt64) (hfinite : (⟨bits⟩ : Double).isFinite = true)
    (hpos : 0 < (⟨bits⟩ : Double).value) : SymbolOption where
  isCallOption := true
  strike := ⟨⟨bits⟩, hfinite, hpos⟩

/-- The calls at 12 and at 12.5 have the same id. -/
theorem not_all_unique : ¬ ∀ s o p, Unique s o p := by
  intro hall
  have hunique := (hall ford (callAt 0x4028000000000000 (by decide +kernel) (by decide +kernel))
    (callAt 0x4029000000000000 (by decide +kernel) (by decide +kernel))).2.2
  have hsame := hunique (by decide +kernel)
  exact absurd hsame.2 (by decide +kernel)

end Atp.OptionStrikes
