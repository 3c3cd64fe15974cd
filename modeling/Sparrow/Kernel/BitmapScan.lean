import Sparrow.Kernel.Bitmap
import Sparrow.Lib.Traced

/-!
# The bits that a scan looks at

`bitmap_scan` with its 32-bit numbers and its calls of `bitmap_scan_test`. It is first fit and complete
(`bitmapScan_first_fit`). The first of its inner loops tests a bit before it looks whether the bit is in the
bitmap, so that it can test the one behind the last (`testsInside_iff`).
-/

namespace Sparrow.Scan
set_option autoImplicit false

/-- A call of `bitmap_scan_test`. -/
def scanTest (b : Bitmap) (bitIdx : BitVec 32) : Traced (BitVec 32) Bool := do
  Traced.emit bitIdx
  return bitmapScanTest b bitIdx.toNat

/-- The first inner loop, with so many turns at most. -/
def skipOnes (b : Bitmap) : Nat → BitVec 32 → Traced (BitVec 32) (BitVec 32)
  | 0, _ => Traced.lift (.error .diverge)
  | turns + 1, areaStart => do
    let one ← scanTest b areaStart
    if one && decide (areaStart.toNat / 8 < b.btmpBytesLen) then skipOnes b turns (areaStart + 1#32) else return areaStart

/-- The second inner loop; `none` is the `return -1` in it. -/
def growArea (b : Bitmap) (areaStart cnt : BitVec 32) : Nat → BitVec 32 → Traced (BitVec 32) (Option (BitVec 32))
  | 0, _ => Traced.lift (.error .diverge)
  | turns + 1, areaSize =>
    if areaSize < cnt then
      if (areaStart + areaSize).toNat / 8 < b.btmpBytesLen then do
        let one ← scanTest b (areaStart + areaSize)
        if one then return some areaSize else growArea b areaStart cnt turns (areaSize + 1#32)
      else return none
    else return some areaSize

/-- The outer loop. -/
def scanFrom (b : Bitmap) (cnt : BitVec 32) (inner : Nat) : Nat → BitVec 32 → Traced (BitVec 32) Int
  | 0, _ => Traced.lift (.error .diverge)
  | turns + 1, areaStart => do
    let areaStart ← skipOnes b inner areaStart
    if b.btmpBytesLen ≤ areaStart.toNat / 8 then return -1
    match ← growArea b areaStart cnt inner 1#32 with
    | none => return -1
    | some areaSize =>
      if areaSize = cnt then return areaStart.toInt else scanFrom b cnt inner turns (areaStart + (areaSize + 1#32))

/-- `bitmap_scan`, with so many turns of each loop at most. -/
def bitmapScan (b : Bitmap) (cnt : BitVec 32) (turns : Nat) : Traced (BitVec 32) Int := scanFrom b cnt turns turns 0#32

/-- The bits from `s` on are `cnt` zeros in the bitmap. -/
def Fits (b : Bitmap) (cnt s : Nat) : Prop := s + cnt ≤ 8 * b.btmpBytesLen ∧ ∀ k, k < cnt → ¬ b.Set (s + k)

instance (b : Bitmap) (cnt s : Nat) : Decidable (Fits b cnt s) := inferInstanceAs (Decidable (_ ∧ _))

/-- However long the scan has run, it has tested bits of the bitmap only. -/
def TestsInside (b : Bitmap) (cnt : BitVec 32) : Prop :=
  ∀ turns, (bitmapScan b cnt turns).Only fun bitIdx => bitIdx.toNat / 8 < b.btmpBytesLen

/-! ## More turns -/

section Turns

variable {b : Bitmap} {cnt areaStart : BitVec 32}

theorem skipOnes_below : ∀ {turns turns' : Nat} {areaStart : BitVec 32}, turns ≤ turns' →
    (skipOnes b turns areaStart).Below (skipOnes b turns' areaStart) := by
  intro turns
  induction turns with
  | zero => exact fun _ => Traced.below_diverge _
  | succ turns ih =>
    intro turns' areaStart more
    obtain ⟨turns', rfl⟩ := Nat.exists_eq_add_of_lt more
    refine (Traced.Below.refl _).bind fun one => ?_
    split
    · exact ih (by omega)
    · exact .refl _

theorem growArea_below : ∀ {turns turns' : Nat} {areaSize : BitVec 32}, turns ≤ turns' →
    (growArea b areaStart cnt turns areaSize).Below (growArea b areaStart cnt turns' areaSize) := by
  intro turns
  induction turns with
  | zero => exact fun _ => Traced.below_diverge _
  | succ turns ih =>
    intro turns' areaSize more
    obtain ⟨turns', rfl⟩ := Nat.exists_eq_add_of_lt more
    rw [growArea, growArea]
    split
    · split
      · refine (Traced.Below.refl _).bind fun one => ?_
        split
        · exact .refl _
        · exact ih (by omega)
      · exact .refl _
    · exact .refl _

theorem scanFrom_below {inner inner' : Nat} (deeper : inner ≤ inner') : ∀ {turns turns' : Nat} {areaStart : BitVec 32}, turns ≤ turns' →
    (scanFrom b cnt inner turns areaStart).Below (scanFrom b cnt inner' turns' areaStart) := by
  intro turns
  induction turns with
  | zero => exact fun _ => Traced.below_diverge _
  | succ turns ih =>
    intro turns' areaStart more
    obtain ⟨turns', rfl⟩ := Nat.exists_eq_add_of_lt more
    refine (skipOnes_below deeper).bind fun areaStart => ?_
    split
    · exact .refl _
    · refine (growArea_below deeper).bind fun found => ?_
      cases found with
      | none => exact .refl _
      | some areaSize =>
        dsimp only
        split
        · exact .refl _
        · exact ih (by omega)

end Turns

/-! ## The loops with turns enough -/

/-- The call tests a bit of the bitmap. -/
def Inside (b : Bitmap) (bitIdx : BitVec 32) : Prop := bitIdx.toNat / 8 < b.btmpBytesLen

section Exact

variable {b : Bitmap} {cnt : BitVec 32} {start a z : Nat}

theorem scanTest_runs {P : BitVec 32 → Prop} {bitIdx : BitVec 32} (h : P bitIdx) :
    (scanTest b bitIdx).Runs P (bitmapScanTest b bitIdx.toNat) :=
  (Traced.runs_emit h).bind (Traced.runs_pure _)

/-- The ones are skipped up to a zero or the end, and the last bit that is tested is the one after them. -/
theorem skipOnes_eq (small : 8 * b.btmpBytesLen < 2 ^ 32) : ∀ {turns a : Nat}, a ≤ 8 * b.btmpBytesLen → 8 * b.btmpBytesLen < a + turns →
    ∃ z, a ≤ z ∧ z ≤ 8 * b.btmpBytesLen ∧ (∀ i, a ≤ i → i < z → b.Set i) ∧ (z < 8 * b.btmpBytesLen → ¬ b.Set z) ∧
      (skipOnes b turns (BitVec.ofNat 32 a)).Runs (fun i => i.toNat ≤ z) (BitVec.ofNat 32 z) ∧
      BitVec.ofNat 32 z ∈ (skipOnes b turns (BitVec.ofNat 32 a)).trace := by
  intro turns
  induction turns with
  | zero => exact fun upTo enough => absurd enough (by omega)
  | succ turns ih =>
    intro a upTo enough
    have position : (BitVec.ofNat 32 a).toNat = a := Nat.mod_eq_of_lt (by omega)
    have test : ∀ {P : BitVec 32 → Prop}, P (BitVec.ofNat 32 a) → (scanTest b (BitVec.ofNat 32 a)).Runs P (bitmapScanTest b a) := by
      intro P h
      have run := @scanTest_runs b P _ h
      rwa [position] at run
    have trace := (Traced.bind_ok (f := fun one => if one && decide ((BitVec.ofNat 32 a).toNat / 8 < b.btmpBytesLen)
      then skipOnes b turns (BitVec.ofNat 32 a + 1#32) else pure (BitVec.ofNat 32 a)) (@test (fun _ => True) trivial).1).1
    rw [skipOnes, trace, position]
    by_cases more : b.Set a ∧ a < 8 * b.btmpBytesLen
    · have goesOn : (bitmapScanTest b a && decide (a / 8 < b.btmpBytesLen)) = true := by
        rw [Bool.and_eq_true, decide_eq_true_eq]
        exact ⟨more.1, by omega⟩
      obtain ⟨z, from_, end_, ones, stop, run, last⟩ := @ih (a + 1) more.2 (by omega)
      rw [BitVec.ofNat_add] at run last
      refine ⟨z, by omega, end_, fun i low high => ?_, stop, (test (by rw [position]; omega)).bind ?_, ?_⟩
      · by_cases here : i = a
        · exact here ▸ more.1
        · exact ones i (by omega) high
      · rwa [if_pos goesOn]
      · rw [if_pos goesOn]
        exact List.mem_append_right _ last
    · have stops : ¬ (bitmapScanTest b a && decide (a / 8 < b.btmpBytesLen)) = true := by
        rw [Bool.and_eq_true, decide_eq_true_eq]
        exact fun h => more ⟨h.1, by omega⟩
      refine ⟨a, Nat.le_refl a, upTo, fun i low high => absurd high (by omega), fun inside set => more ⟨set, inside⟩,
        (test (Nat.le_of_eq position)).bind ?_, List.mem_append_left _ List.mem_cons_self⟩
      rw [if_neg stops]
      exact Traced.runs_pure _

/-- How the run of zeros from `z` on ends: it is long enough, the bitmap ends, or a one follows. -/
inductive Grown (b : Bitmap) (cnt : BitVec 32) (z : Nat) : Option (BitVec 32) → Prop where
  | enough (fits : Fits b cnt.toNat z) : Grown b cnt z (some cnt)
  | ended (short : 8 * b.btmpBytesLen < z + cnt.toNat) (zeros : ∀ i, z ≤ i → i < 8 * b.btmpBytesLen → ¬ b.Set i) : Grown b cnt z none
  | broken (k : Nat) (less : k < cnt.toNat) (inside : z + k < 8 * b.btmpBytesLen) (one : b.Set (z + k)) :
      Grown b cnt z (some (BitVec.ofNat 32 k))

theorem growArea_eq (small : 8 * b.btmpBytesLen < 2 ^ 32) : ∀ {turns k : Nat}, k ≤ cnt.toNat → z + k ≤ 8 * b.btmpBytesLen →
    (∀ j, j < k → ¬ b.Set (z + j)) → 8 * b.btmpBytesLen < z + k + turns →
    ∃ r, (growArea b (BitVec.ofNat 32 z) cnt turns (BitVec.ofNat 32 k)).Runs (Inside b) r ∧ Grown b cnt z r := by
  intro turns
  induction turns with
  | zero => exact fun _ upTo _ enough => absurd enough (by omega)
  | succ turns ih =>
    intro k size upTo zeros enough
    have word := cnt.isLt
    have length : (BitVec.ofNat 32 k).toNat = k := Nat.mod_eq_of_lt (by omega)
    have position : (BitVec.ofNat 32 z + BitVec.ofNat 32 k).toNat = z + k := by
      rw [← BitVec.ofNat_add]
      exact Nat.mod_eq_of_lt (by omega)
    have less : BitVec.ofNat 32 k < cnt ↔ k < cnt.toNat := by rw [BitVec.lt_def, length]
    rw [growArea, position]
    by_cases shorter : k < cnt.toNat
    · rw [if_pos (less.2 shorter)]
      by_cases inside : z + k < 8 * b.btmpBytesLen
      · rw [if_pos (by omega)]
        have test : (scanTest b (BitVec.ofNat 32 z + BitVec.ofNat 32 k)).Runs (Inside b) (bitmapScanTest b (z + k)) := by
          have run := @scanTest_runs b (Inside b) (BitVec.ofNat 32 z + BitVec.ofNat 32 k) (by rw [Inside, position]; omega)
          rwa [position] at run
        by_cases one : bitmapScanTest b (z + k) = true
        · refine ⟨_, test.bind ?_, .broken k shorter inside one⟩
          rw [if_pos one]
          exact Traced.runs_pure _
        · have longer : ∀ j, j < k + 1 → ¬ b.Set (z + j) := by
            intro j before
            by_cases last : j = k
            · exact last ▸ one
            · exact zeros j (by omega)
          obtain ⟨r, run, grown⟩ := @ih (k + 1) shorter inside longer (by omega)
          rw [BitVec.ofNat_add] at run
          refine ⟨r, test.bind ?_, grown⟩
          rwa [if_neg one]
      · rw [if_neg (by omega)]
        refine ⟨none, Traced.runs_pure _, .ended (by omega) fun i low high => ?_⟩
        have zero := zeros (i - z) (by omega)
        rwa [show z + (i - z) = i by omega] at zero
    · rw [if_neg (fun h => shorter (less.1 h))]
      have full : BitVec.ofNat 32 k = cnt := BitVec.eq_of_toNat_eq (by omega)
      refine ⟨some cnt, full ▸ Traced.runs_pure _, .enough ⟨by omega, fun j before => zeros j (by omega)⟩⟩

/-- The scan has come to `a`: the bit before is a one, and no start before `a` fits. -/
structure Reached (b : Bitmap) (cnt a : Nat) : Prop where
  upTo : a ≤ 8 * b.btmpBytesLen
  edge : a = 0 ∨ b.Set (a - 1)
  none : ∀ s, s < a → ¬ Fits b cnt s

/-- No run of zeros starts at or before a one and goes past it. -/
theorem not_fits_of_set {c s i : Nat} (one : b.Set i) (from_ : s ≤ i) (upTo : i < s + c) : ¬ Fits b c s := by
  intro fits
  have zero := fits.2 (i - s) (by omega)
  rw [show s + (i - s) = i by omega] at zero
  exact zero one

/-- The ones before `z` are no starts either. -/
theorem Reached.skipped {c : Nat} (h : Reached b c a) (positive : 0 < c) (ones : ∀ i, a ≤ i → i < z → b.Set i) :
    ∀ s, s < z → ¬ Fits b c s := by
  intro s less
  by_cases before : s < a
  · exact h.none s before
  · exact not_fits_of_set (ones s (by omega) less) (Nat.le_refl s) (by omega)

/-- Behind a run that is too short the scan goes on. -/
theorem Reached.next {c k : Nat} (h : Reached b c a) (positive : 0 < c) (ones : ∀ i, a ≤ i → i < z → b.Set i) (less : k < c)
    (inside : z + k < 8 * b.btmpBytesLen) (one : b.Set (z + k)) : Reached b c (z + (k + 1)) := by
  refine ⟨inside, .inr one, fun s before => ?_⟩
  by_cases skipped : s < z
  · exact h.skipped positive ones s skipped
  · exact not_fits_of_set one (by omega) (by omega)

/-- How a scan ends. -/
inductive Ends (b : Bitmap) (cnt : Nat) (x : Traced (BitVec 32) Int) : Prop where
  | found (s : Nat) (result : x.result = .ok (BitVec.ofNat 32 s).toInt) (fits : Fits b cnt s) (least : ∀ s', s' < s → ¬ Fits b cnt s')
      (inside : x.Only (Inside b))
  | full (result : x.result = .ok (-1)) (none : ∀ s, ¬ Fits b cnt s) (last : 0 < b.btmpBytesLen ∧ ¬ b.Set (8 * b.btmpBytesLen - 1))
      (inside : x.Only (Inside b))
  | past (result : x.result = .ok (-1)) (none : ∀ s, ¬ Fits b cnt s) (last : b.btmpBytesLen = 0 ∨ b.Set (8 * b.btmpBytesLen - 1))
      (outside : BitVec.ofNat 32 (8 * b.btmpBytesLen) ∈ x.trace)

/-- A scan ends as its rest does. -/
theorem Ends.after {α : Type} {c : Nat} {x : Traced (BitVec 32) α} {f : α → Traced (BitVec 32) Int} {r : α} (first : x.Runs (Inside b) r)
    (rest : Ends b c (f r)) : Ends b c (x >>= f) := by
  obtain ⟨trace, result⟩ := Traced.bind_ok (f := f) first.1
  have all : (f r).Only (Inside b) → (x >>= f).Only (Inside b) := by
    intro only i mem
    rw [trace, List.mem_append] at mem
    exact mem.elim (first.2 i) (only i)
  cases rest with
  | found s is fits least inside => exact .found s (result.trans is) fits least (all inside)
  | full is none last inside => exact .full (result.trans is) none last (all inside)
  | past is none last outside => exact .past (result.trans is) none last (by rw [trace]; exact List.mem_append_right _ outside)

/-- The scan ends at once when the bit behind the last has been tested. -/
theorem ends_past {α : Type} {c : Nat} {x : Traced (BitVec 32) α} {f : α → Traced (BitVec 32) Int} {r : α} (ran : x.result = .ok r)
    (outside : BitVec.ofNat 32 (8 * b.btmpBytesLen) ∈ x.trace) (stops : f r = pure (-1)) (none : ∀ s, ¬ Fits b c s)
    (last : b.btmpBytesLen = 0 ∨ b.Set (8 * b.btmpBytesLen - 1)) : Ends b c (x >>= f) := by
  obtain ⟨trace, result⟩ := Traced.bind_ok (f := f) ran
  rw [stops] at result
  exact .past result none last (by rw [trace]; exact List.mem_append_left _ outside)

/-- Every turn of the outer loop moves the start on, by induction on the turns left. -/
theorem scanFrom_ends (small : 8 * b.btmpBytesLen < 2 ^ 32) (positive : 0 < cnt.toNat) {inner : Nat} (deep : 8 * b.btmpBytesLen < inner) :
    ∀ {turns a : Nat}, 8 * b.btmpBytesLen < a + turns → Reached b cnt.toNat a →
      Ends b cnt.toNat (scanFrom b cnt inner turns (BitVec.ofNat 32 a)) := by
  intro turns
  induction turns with
  | zero => exact fun enough reached => absurd enough (by have := reached.upTo; omega)
  | succ turns ih =>
    intro a enough reached
    obtain ⟨z, from_, upTo, ones, stop, skip, last⟩ := @skipOnes_eq b small inner _ reached.upTo (by omega)
    have position : (BitVec.ofNat 32 z).toNat = z := Nat.mod_eq_of_lt (by omega)
    have none := reached.skipped positive ones
    rw [scanFrom]
    by_cases end_ : z = 8 * b.btmpBytesLen
    · -- the bit behind the last has been tested
      have nothing : ∀ s, ¬ Fits b cnt.toNat s := by
        intro s fits
        have bound := fits.1
        exact none s (by omega) fits
      have edge : b.btmpBytesLen = 0 ∨ b.Set (8 * b.btmpBytesLen - 1) := by
        by_cases same : a = z
        · rw [← end_, ← same]
          exact reached.edge.imp_left (by omega)
        · exact .inr (ones _ (by omega) (by omega))
      exact ends_past skip.1 (end_ ▸ last) (if_pos (by rw [position]; omega)) nothing edge
    · have zero := stop (by omega)
      have skipped : (skipOnes b inner (BitVec.ofNat 32 a)).Runs (Inside b) (BitVec.ofNat 32 z) :=
        skip.mono fun i below => show i.toNat / 8 < b.btmpBytesLen by omega
      obtain ⟨r, grow, grown⟩ := @growArea_eq b cnt z small inner 1 positive (by omega)
        (fun j less => by rwa [show z + j = z by omega]) (by omega)
      refine .after skipped ?_
      rw [if_neg (by rw [position]; omega)]
      refine .after grow ?_
      cases grown with
      | enough fits =>
        show Ends b cnt.toNat (if cnt = cnt then _ else _)
        rw [if_pos rfl]
        exact .found z rfl fits none (@Traced.runs_pure _ _ (Inside b) _).2
      | ended short zeros =>
        refine .full rfl (fun s fits => ?_) ⟨by omega, zeros _ (by omega) (by omega)⟩ (Traced.runs_pure _).2
        by_cases before : s < z
        · exact none s before fits
        · have bound := fits.1
          omega
      | broken k less inside one =>
        have differs : BitVec.ofNat 32 k ≠ cnt := by
          rintro rfl
          exact absurd less (by rw [BitVec.toNat_ofNat]; exact Nat.not_lt.2 (Nat.mod_le _ _))
        show Ends b cnt.toNat (if BitVec.ofNat 32 k = cnt then _ else _)
        rw [if_neg differs]
        have goesOn := ih (by omega) (reached.next positive ones less inside one)
        rwa [BitVec.ofNat_add, BitVec.ofNat_add] at goesOn

end Exact

/-- A scan with turns enough ends, and with more turns in the same way. -/
theorem bitmapScan_ends {b : Bitmap} {cnt : BitVec 32} (small : 8 * b.btmpBytesLen < 2 ^ 32) (positive : cnt ≠ 0#32) {turns : Nat}
    (enough : 8 * b.btmpBytesLen < turns) : Ends b cnt.toNat (bitmapScan b cnt turns) := by
  have one : 0 < cnt.toNat := Nat.pos_of_ne_zero fun zero => positive (BitVec.eq_of_toNat_eq zero)
  exact scanFrom_ends small one enough (by omega) ⟨Nat.zero_le _, .inl rfl, fun s less => absurd less (Nat.not_lt_zero s)⟩

/-- The value of a scan with turns enough. -/
theorem bitmapScan_value {b : Bitmap} {cnt : BitVec 32} (small : 8 * b.btmpBytesLen < 2 ^ 31) (positive : cnt ≠ 0#32) :
    ∃ r, (∀ turns, 8 * b.btmpBytesLen < turns → (bitmapScan b cnt turns).result = .ok r) ∧
      (r = -1 ↔ ∀ s, ¬ Fits b cnt.toNat s) ∧
      ∀ s : Nat, r = s ↔ Fits b cnt.toNat s ∧ ∀ s', s' < s → ¬ Fits b cnt.toNat s' := by
  have same : ∀ {r : Int}, (bitmapScan b cnt (8 * b.btmpBytesLen + 1)).result = .ok r →
      ∀ turns, 8 * b.btmpBytesLen < turns → (bitmapScan b cnt turns).result = .ok r := by
    intro r ran turns more
    obtain equal | ⟨stopped, _⟩ := @scanFrom_below b cnt _ _ more _ _ 0#32 more
    · exact (congrArg Traced.result equal).symm.trans ran
    · cases ran.symm.trans stopped
  obtain ⟨s, result, fits, least, _⟩ | ⟨result, none, _, _⟩ | ⟨result, none, _, _⟩ :=
    bitmapScan_ends (by omega) positive (Nat.lt_succ_self (8 * b.btmpBytesLen))
  · have bound := fits.1
    have value : (BitVec.ofNat 32 s).toInt = s := by
      rw [BitVec.toInt_eq_toNat_of_lt (by rw [BitVec.toNat_ofNat]; omega), BitVec.toNat_ofNat, Nat.mod_eq_of_lt (by omega)]
    rw [value] at result
    refine ⟨s, same result, iff_of_false (by omega) fun none => none s fits, fun s' => ⟨?_, ?_⟩⟩
    · intro equal
      rw [← Int.ofNat_inj.1 equal]
      exact ⟨fits, least⟩
    · rintro ⟨fits', least'⟩
      have notBefore : ¬ s < s' := fun less => least' s less fits
      have notAfter : ¬ s' < s := fun less => least s' less fits'
      exact congrArg _ (by omega)
  · exact ⟨-1, same result, iff_of_true rfl none, fun s => iff_of_false (by omega) fun h => none s h.1⟩
  · exact ⟨-1, same result, iff_of_true rfl none, fun s => iff_of_false (by omega) fun h => none s h.1⟩

/-! ## The scan with numbers that do not wrap -/

section Numbers

variable {b : Bitmap} {c z : Nat}

theorem growArea_numbers : ∀ {fuel k : Nat}, k ≤ c → z + k ≤ 8 * b.btmpBytesLen → (∀ j, j < k → ¬ b.Set (z + j)) → c ≤ k + fuel →
    (Sparrow.growArea b z c fuel k = none ∧ 8 * b.btmpBytesLen < z + c) ∨ (Sparrow.growArea b z c fuel k = some c ∧ Fits b c z) ∨
      ∃ k', Sparrow.growArea b z c fuel k = some k' ∧ k' < c ∧ z + k' < 8 * b.btmpBytesLen ∧ b.Set (z + k') := by
  intro fuel
  induction fuel with
  | zero =>
    intro k size upTo zeros enough
    obtain rfl : k = c := Nat.le_antisymm size enough
    exact .inr (.inl ⟨rfl, upTo, zeros⟩)
  | succ fuel ih =>
    intro k size upTo zeros enough
    rw [Sparrow.growArea]
    by_cases shorter : k < c
    · rw [if_pos shorter]
      by_cases inside : z + k < 8 * b.btmpBytesLen
      · rw [if_pos (by omega)]
        by_cases one : bitmapScanTest b (z + k) = true
        · rw [if_pos one]
          exact .inr (.inr ⟨k, rfl, shorter, inside, one⟩)
        · rw [if_neg one]
          refine ih shorter inside (fun j before => ?_) (by omega)
          by_cases last : j = k
          · exact last ▸ one
          · exact zeros j (by omega)
      · rw [if_neg (by omega)]
        exact .inl ⟨rfl, by omega⟩
    · rw [if_neg shorter]
      obtain rfl : k = c := by omega
      exact .inr (.inl ⟨rfl, upTo, zeros⟩)

theorem scanFrom_numbers (positive : 0 < c) : ∀ {fuel a : Nat}, 8 * b.btmpBytesLen < a + fuel → Reached b c a →
    (Sparrow.scanFrom b c fuel a = none ∧ ∀ s, ¬ Fits b c s) ∨
      ∃ s, Sparrow.scanFrom b c fuel a = some s ∧ Fits b c s ∧ ∀ s', s' < s → ¬ Fits b c s' := by
  intro fuel
  induction fuel with
  | zero => exact fun enough reached => absurd enough (by have := reached.upTo; omega)
  | succ fuel ih =>
    intro a enough reached
    obtain ⟨from_, upTo, ones, stop⟩ := skipOnes_spec b (8 * b.btmpBytesLen + 1) a (by omega) reached.upTo
    rw [Sparrow.scanFrom]
    generalize Sparrow.skipOnes b (8 * b.btmpBytesLen + 1) a = z at from_ upTo ones stop ⊢
    have none := reached.skipped positive ones
    have short : 8 * b.btmpBytesLen < z + c → ∀ s, ¬ Fits b c s := by
      intro past s fits
      have bound := fits.1
      exact none s (by omega) fits
    by_cases end_ : z = 8 * b.btmpBytesLen
    · rw [if_pos (by omega)]
      exact .inl ⟨rfl, short (by omega)⟩
    · have zero := stop (by omega)
      rw [if_neg (by omega)]
      obtain ⟨grown, past⟩ | ⟨grown, fits⟩ | ⟨k, grown, less, inside, one⟩ :=
        @growArea_numbers b c z c 1 positive (by omega) (fun j less => by rwa [show z + j = z by omega]) (by omega)
      · rw [grown]
        exact .inl ⟨rfl, short past⟩
      · rw [grown]
        exact .inr ⟨z, if_pos rfl, fits, none⟩
      · rw [grown]
        dsimp only
        rw [if_neg (Nat.ne_of_lt less)]
        exact ih (by omega) (reached.next positive ones less inside one)

end Numbers

/-- In a bitmap of less than 2^31 bits the scan of the allocators is this one. -/
theorem bitmapScan_eq {b : Bitmap} {cnt : BitVec 32} (small : 8 * b.btmpBytesLen < 2 ^ 31) (positive : cnt ≠ 0#32) {turns : Nat}
    (enough : 8 * b.btmpBytesLen < turns) :
    (bitmapScan b cnt turns).result = .ok ((Sparrow.bitmapScan b cnt.toNat).elim (-1) fun s => (s : Int)) := by
  obtain ⟨r, result, full, first⟩ := bitmapScan_value small positive
  have one : 0 < cnt.toNat := Nat.pos_of_ne_zero fun zero => positive (BitVec.eq_of_toNat_eq zero)
  have start : Reached b cnt.toNat 0 := ⟨Nat.zero_le _, .inl rfl, fun s less => absurd less (Nat.not_lt_zero s)⟩
  rw [result turns enough, Sparrow.bitmapScan]
  obtain ⟨none, nothing⟩ | ⟨s, some_, fits, least⟩ := @scanFrom_numbers b _ one (8 * b.btmpBytesLen + 1) 0 (by omega) start
  · rw [none, full.2 nothing]
    rfl
  · rw [some_, (first s).2 ⟨fits, least⟩]
    rfl

/-! ## First fit, and the bits that are tested -/

/-- `bitmap_scan` gives the first run of zeros that is long enough, and -1 when there is none. To set its
bits changes no others. -/
theorem bitmapScan_first_fit (b : Bitmap) (cnt : BitVec 32) (small : 8 * b.btmpBytesLen < 2 ^ 31) (positive : cnt ≠ 0#32) :
    ∃ r, (∀ turns, 8 * b.btmpBytesLen < turns → (bitmapScan b cnt turns).result = .ok r) ∧
      (r = -1 ↔ ∀ s, ¬ Fits b cnt.toNat s) ∧
      (∀ s : Nat, r = s ↔ Fits b cnt.toNat s ∧ ∀ s', s' < s → ¬ Fits b cnt.toNat s') ∧
      ∀ s : Nat, r = s → ∀ j, (bitmapSetRun b s true cnt.toNat).Set j ↔ s ≤ j ∧ j < s + cnt.toNat ∨ b.Set j := by
  obtain ⟨r, result, full, first⟩ := bitmapScan_value small positive
  refine ⟨r, result, full, first, fun s _ j => ?_⟩
  rw [set_bitmapSetRun]
  split
  · rename_i inside
    exact iff_of_true rfl (.inl inside)
  · rename_i outside
    exact (or_iff_right outside).symm

/-- In a byte whose lowest four bits are set two zeros are found at 4. -/
theorem bitmapScan_first_fit_four : (bitmapScan ⟨1, fun _ => 0x0f#8⟩ 2#32 9).result = .ok 4 := by
  obtain ⟨r, result, _, first, _⟩ := bitmapScan_first_fit ⟨1, fun _ => 0x0f#8⟩ 2#32 (by decide) (by decide)
  rw [(first 4).2 (by decide)] at result
  exact result 9 (by decide)

/-- The scan stays in the bitmap when it finds a run or the last bit is zero; otherwise it comes to test the bit
behind the last, unless there are so many bits that no such number has 32 bits. -/
theorem testsInside_iff (b : Bitmap) (cnt : BitVec 32) (positive : cnt ≠ 0#32) :
    TestsInside b cnt ↔ 2 ^ 29 ≤ b.btmpBytesLen ∨ (∃ s, Fits b cnt.toNat s) ∨
      0 < b.btmpBytesLen ∧ ¬ b.Set (8 * b.btmpBytesLen - 1) := by
  by_cases large : 2 ^ 29 ≤ b.btmpBytesLen
  · refine iff_of_true (fun turns i _ => ?_) (.inl large)
    have word := i.isLt
    show i.toNat / 8 < b.btmpBytesLen
    omega
  constructor
  · intro tests
    obtain ⟨s, _, fits, _, _⟩ | ⟨_, _, last, _⟩ | ⟨_, none, last, outside⟩ :=
      bitmapScan_ends (b := b) (by omega) positive (Nat.lt_succ_self _)
    · exact .inr (.inl ⟨s, fits⟩)
    · exact .inr (.inr last)
    · have bit : (BitVec.ofNat 32 (8 * b.btmpBytesLen)).toNat / 8 < b.btmpBytesLen := tests _ _ outside
      rw [BitVec.toNat_ofNat, Nat.mod_eq_of_lt (by omega)] at bit
      omega
  · intro condition turns
    have more : turns ≤ max turns (8 * b.btmpBytesLen + 1) := Nat.le_max_left _ _
    refine (scanFrom_below more more).only ?_
    obtain ⟨s, _, _, _, only⟩ | ⟨_, _, _, only⟩ | ⟨_, none, last, _⟩ :=
      bitmapScan_ends (b := b) (by omega) positive (Nat.lt_of_lt_of_le (Nat.lt_succ_self _) (Nat.le_max_right turns _))
    · exact only
    · exact only
    · obtain many | ⟨s, fits⟩ | ⟨some_, clear⟩ := condition
      · exact absurd many large
      · exact absurd fits (none s)
      · exact absurd last (by rintro (zero | one); exact Nat.ne_of_gt some_ zero; exact clear one)

/-- The bitmap of one byte with all bits set. -/
theorem testsInside_full : ¬ TestsInside ⟨1, fun _ => 0xff#8⟩ 1#32 := by
  intro tests
  exact absurd (tests 10 8#32 (by decide)) (by decide)

/-- With the last bit clear. -/
theorem testsInside_last : TestsInside ⟨1, fun _ => 0x7f#8⟩ 1#32 :=
  (testsInside_iff ⟨1, fun _ => 0x7f#8⟩ 1#32 (by decide)).2 (.inr (.inr (by decide)))

end Sparrow.Scan
