import ShamirBackup.Interpolation
import ShamirBackup.Proofs.Logarithm

/-!
# Interpolation is evaluation

A curve is a list of polynomials, one for each position of the byte strings. Points with different
places and values of one length lie on a curve of degree below their number
(`exists_curve_through`), and `interpolate` gives the value of any such curve at any place
(`interpolate_of_onCurve`), so there is only one. At one position of the byte strings this is the one
polynomial that fits the bytes there (`interpolate_eq_eval`). Nothing else about the points can keep
them from being interpolated (`interpolate_eq_error_iff`), a division by zero least of all.
-/

namespace ShamirBackup

open Polynomial

/-- A polynomial for each position of a byte string. -/
abbrev Curve := List GF256[X]

namespace Curve

/-- The byte string of the curve at a place. -/
noncomputable def valueAt (curve : Curve) (x : UInt8) : List UInt8 :=
  curve.map fun f => GF256.toByte (f.eval (GF256.ofByte x))

/-- All polynomials of the curve have a degree below `n`. -/
def DegreeLt (curve : Curve) (n : Nat) : Prop := ∀ f ∈ curve, f.degree < n

/-- The curve runs through a point. -/
def Through (curve : Curve) (point : Point) : Prop := point.value = curve.valueAt point.x

@[simp] theorem length_valueAt (curve : Curve) (x : UInt8) :
    (curve.valueAt x).length = curve.length :=
  List.length_map ..

end Curve

namespace Interpolation

/-! ### Lagrange bases -/

theorem vanishing_eq_prod (zs : List GF256) (x : GF256) :
    vanishing zs x = (zs.map (x - ·)).prod := by
  induction zs with
  | nil => rfl
  | cons z zs ih =>
    rw [List.map_cons, List.prod_cons, ← ih]
    rfl

/-- The weight of a node is the value of the Lagrange basis polynomial that belongs to it. -/
theorem weight?_eq_some {nodes : List GF256} (hnodup : nodes.Nodup) (node x : GF256) :
    weight? nodes node x = some ((Lagrange.basis nodes.toFinset id node).eval x) := by
  have hothers : (nodes.filter (· ≠ node)).toFinset = nodes.toFinset.erase node := by
    ext z
    simp [and_comm]
  have hprod : ∀ y : GF256, vanishing (nodes.filter (· ≠ node)) y =
      ∏ z ∈ nodes.toFinset.erase node, (y - z) := by
    intro y
    rw [vanishing_eq_prod, ← hothers, List.prod_toFinset _ (hnodup.filter _)]
  have hne : ∏ z ∈ nodes.toFinset.erase node, (node - z) ≠ 0 := by
    refine Finset.prod_ne_zero_iff.mpr fun z hz => sub_ne_zero.mpr ?_
    exact (Finset.ne_of_mem_erase hz).symm
  simp only [weight?, hprod]
  rw [GF256.div?_eq_some _ hne, Lagrange.basis, eval_prod, ← Finset.prod_div_distrib]
  congr 1
  refine Finset.prod_congr rfl fun z _ => ?_
  simp [Lagrange.basisDivisor, div_eq_inv_mul]

theorem vanishing_ne_zero {zs : List GF256} {x : GF256} (h : x ∉ zs) : vanishing zs x ≠ 0 := by
  rw [vanishing_eq_prod]
  apply List.prod_ne_zero
  intro hzero
  obtain ⟨z, hz, hsub⟩ := List.mem_map.mp hzero
  rw [sub_eq_zero] at hsub
  exact h (hsub ▸ hz)

/-- No weight divides by zero, since a node is left out of its own weight. -/
theorem weight?_ne_none (nodes : List GF256) (node x : GF256) : weight? nodes node x ≠ none := by
  have hne : vanishing (nodes.filter (· ≠ node)) node ≠ 0 := vanishing_ne_zero (by simp)
  simp only [weight?]
  rw [GF256.div?_eq_some _ hne]
  exact Option.some_ne_none _

/-! ### The sum of the parts -/

/-- One step adds the part of one point, on every polynomial of the curve alike. -/
theorem addScaled_through {curve : Curve} (sum : GF256[X] → GF256) (weight : GF256) {point : Point}
    (hpoint : curve.Through point) :
    addScaled (curve.map fun f => (sum f).toByte) weight point.value =
      curve.map fun f => (sum f + f.eval (GF256.ofByte point.x) * weight).toByte := by
  rw [hpoint, Curve.valueAt, addScaled, List.zipWith_map, List.zipWith_self]
  rfl

theorem sumParts_onCurve {nodes : List GF256} (hnodup : nodes.Nodup) (curve : Curve) (x : GF256)
    (sum : GF256[X] → GF256) (points : List Point) (hon : ∀ point ∈ points, curve.Through point) :
    sumParts nodes x (curve.map fun f => (sum f).toByte) points =
      .ok (curve.map fun f => GF256.toByte (sum f + (points.map fun point =>
        f.eval (GF256.ofByte point.x) *
          (Lagrange.basis nodes.toFinset id (GF256.ofByte point.x)).eval x).sum)) := by
  induction points generalizing sum with
  | nil => simp [sumParts]
  | cons point points ih =>
    rw [sumParts, weight?_eq_some hnodup]
    dsimp only
    rw [addScaled_through sum _ (hon point (by simp)), ih _ fun q hq => hon q (by simp [hq])]
    simp only [List.map_cons, List.sum_cons, add_assoc]

/-- The parts of a polynomial of small degree add up to its value. -/
theorem sum_parts_eq_eval {points : List Point}
    (hnodup : (points.map fun point => GF256.ofByte point.x).Nodup) {f : GF256[X]}
    (hdegree : f.degree < points.length) (x : GF256) :
    (points.map fun point => f.eval (GF256.ofByte point.x) *
      (Lagrange.basis (points.map fun point => GF256.ofByte point.x).toFinset id
        (GF256.ofByte point.x)).eval x).sum = f.eval x := by
  set nodes := points.map fun point => GF256.ofByte point.x with hnodes
  have hcard : nodes.toFinset.card = points.length := by
    rw [List.toFinset_card_of_nodup hnodup, hnodes, List.length_map]
  have hf := Lagrange.eq_interpolate (s := nodes.toFinset) (v := id) (f := f)
    Function.injective_id.injOn (by rwa [hcard])
  calc (points.map fun point => f.eval (GF256.ofByte point.x) *
          (Lagrange.basis nodes.toFinset id (GF256.ofByte point.x)).eval x).sum
      = (nodes.map fun z => f.eval z * (Lagrange.basis nodes.toFinset id z).eval x).sum := by
        rw [hnodes, List.map_map]
        rfl
    _ = ∑ z ∈ nodes.toFinset, f.eval z * (Lagrange.basis nodes.toFinset id z).eval x :=
        (List.sum_toFinset _ hnodup).symm
    _ = f.eval x := by
        conv_rhs => rw [hf]
        simp [Lagrange.interpolate_apply, eval_finsetSum]

end Interpolation

open Interpolation

/-! ### Evaluation -/

/-- The values of the points have one length. -/
def SameLength (points : List Point) : Prop :=
  ∃ length, ∀ point ∈ points, point.value.length = length

theorem sameLength_cons_iff {first : Point} {rest : List Point} :
    SameLength (first :: rest) ↔
      ∀ point ∈ first :: rest, point.value.length = first.value.length := by
  constructor
  · rintro ⟨length, hlength⟩ point hpoint
    rw [hlength point hpoint, hlength first (by simp)]
  · intro h
    exact ⟨_, h⟩

/-- The comparisons with the first value settle the lengths of all. -/
theorem any_length_ne_iff {first : Point} {rest : List Point} :
    (first :: rest).any (·.value.length ≠ first.value.length) = true ↔
      ¬ SameLength (first :: rest) := by
  simp [sameLength_cons_iff]

theorem nodup_nodes {points : List Point} (hnodup : (points.map (·.x)).Nodup) :
    (points.map fun point => GF256.ofByte point.x).Nodup := by
  have h := hnodup.map GF256.ofByte_injective
  rwa [List.map_map] at h

/-- **Interpolation is evaluation**: through points of different places, any curve of degree below
their number has the interpolated values. -/
theorem interpolate_of_onCurve {points : List Point} (hne : points ≠ [])
    (hnodup : (points.map (·.x)).Nodup) {curve : Curve} (hdegree : curve.DegreeLt points.length)
    (hon : ∀ point ∈ points, curve.Through point) (x : UInt8) :
    interpolate points x = .ok (curve.valueAt x) := by
  obtain ⟨first, rest, rfl⟩ := List.exists_cons_of_ne_nil hne
  have hlength : ∀ point ∈ first :: rest, point.value.length = curve.length := by
    intro point hpoint
    rw [hon point hpoint, Curve.length_valueAt]
  have hany : (first :: rest).any (·.value.length ≠ first.value.length) = false := by
    rw [← Bool.not_eq_true, any_length_ne_iff, not_not]
    exact ⟨_, hlength⟩
  simp only [interpolate, hany, hnodup, not_true_eq_false, Bool.false_eq_true, if_false]
  split
  · rename_i point hfind
    have hx : point.x = x := by simpa using List.find?_some hfind
    rw [hon point (List.mem_of_find?_eq_some hfind), hx]
  · have hzero : List.replicate first.value.length (0 : UInt8) =
        curve.map fun _ => GF256.toByte 0 := by
      rw [hlength first (by simp), List.map_const']
      rfl
    rw [hzero, sumParts_onCurve (nodup_nodes hnodup) curve _ (fun _ => 0) _ hon]
    congr 1
    refine List.map_congr_left fun f hf => ?_
    rw [zero_add, sum_parts_eq_eval (nodup_nodes hnodup) (hdegree f hf)]

/-- Curves of small degree through the same points are the same at every place. -/
theorem valueAt_eq_of_through {points : List Point} (hne : points ≠ [])
    (hnodup : (points.map (·.x)).Nodup) {curve other : Curve}
    (hdegree : curve.DegreeLt points.length) (hdegree' : other.DegreeLt points.length)
    (hon : ∀ point ∈ points, curve.Through point) (hon' : ∀ point ∈ points, other.Through point)
    (x : UInt8) : curve.valueAt x = other.valueAt x := by
  have h := interpolate_of_onCurve hne hnodup hdegree hon x
  rw [interpolate_of_onCurve hne hnodup hdegree' hon' x] at h
  exact (Except.ok.inj h).symm

/-! ### The curve through given points -/

theorem injOn_ofByte_x {points : List Point} (hnodup : (points.map (·.x)).Nodup) :
    Set.InjOn (fun point : Point => GF256.ofByte point.x) points.toFinset := by
  intro p hp q hq h
  exact List.inj_on_of_nodup_map hnodup (by simpa using hp) (by simpa using hq)
    (GF256.ofByte_injective h)

theorem exists_curve_through {points : List Point} (hnodup : (points.map (·.x)).Nodup)
    {length : Nat} (hlength : ∀ point ∈ points, point.value.length = length) :
    ∃ curve : Curve, curve.length = length ∧ curve.DegreeLt points.length ∧
      ∀ point ∈ points, curve.Through point := by
  have hinj := injOn_ofByte_x hnodup
  have hcard : points.toFinset.card = points.length :=
    List.toFinset_card_of_nodup (List.Nodup.of_map _ hnodup)
  let byteAt (i : Nat) (point : Point) : GF256 := GF256.ofByte (point.value.getD i 0)
  refine ⟨(List.range length).map fun i =>
    Lagrange.interpolate points.toFinset (fun point => GF256.ofByte point.x) (byteAt i),
    by simp, ?_, ?_⟩
  · intro f hf
    obtain ⟨i, -, rfl⟩ := List.mem_map.mp hf
    rw [← hcard]
    exact Lagrange.degree_interpolate_lt _ hinj
  · intro point hpoint
    have heval : ∀ i, eval (GF256.ofByte point.x) (Lagrange.interpolate points.toFinset
        (fun point => GF256.ofByte point.x) (byteAt i)) = byteAt i point := fun i =>
      Lagrange.eval_interpolate_at_node (byteAt i) hinj (by simpa using hpoint)
    apply List.ext_getElem
    · simp [hlength point hpoint]
    · intro i hi _
      simp only [Curve.valueAt, List.getElem_map, List.getElem_range, heval, byteAt,
        GF256.toByte_ofByte]
      simp [hi]

/-! ### What cannot be interpolated -/

variable {points : List Point} {x : UInt8} {position : Nat}

/-- **Why points cannot be interpolated**: there are none, their values differ in length, or two of
them share a place. -/
theorem interpolate_eq_error_iff {fault : Fault} : interpolate points x = .error fault ↔
    (points = [] ∧ fault = .set .noShares) ∨
    (¬ SameLength points ∧ fault = .set .valueLengths) ∨
    (SameLength points ∧ ¬ (points.map (·.x)).Nodup ∧ fault = .set .repeatedIndices) := by
  rcases points with _ | ⟨first, rest⟩
  · have hnone : SameLength [] := ⟨0, by simp⟩
    simp [interpolate, hnone, eq_comm]
  by_cases hlength : SameLength (first :: rest)
  · by_cases hnodup : ((first :: rest).map (·.x)).Nodup
    · obtain ⟨length, hvalue⟩ := id hlength
      obtain ⟨curve, -, hdegree, hon⟩ := exists_curve_through hnodup hvalue
      rw [interpolate_of_onCurve (by simp) hnodup hdegree hon]
      simp only [reduceCtorEq, hlength, hnodup, not_true_eq_false, false_and, and_false, or_false]
    · rw [interpolate, if_neg (by rwa [any_length_ne_iff, not_not]), if_pos hnodup]
      simp only [reduceCtorEq, hlength, hnodup, not_true_eq_false, not_false_eq_true, false_and,
        true_and, false_or, Except.error.injEq, eq_comm]
  · rw [interpolate, if_pos (any_length_ne_iff.mpr hlength)]
    simp only [reduceCtorEq, hlength, not_false_eq_true, false_and, true_and, false_or, or_false,
      Except.error.injEq, eq_comm]

/-! ### The polynomial at one position -/

/-- The polynomial has a degree below the number of the points, and at the place of each point it
takes the byte that the point has at `position`. -/
structure Fits (points : List Point) (position : Nat) (f : GF256[X]) : Prop where
  degree_lt : f.degree < points.length
  byte_eq : ∀ point ∈ points,
    point.value[position]? = some (f.eval (GF256.ofByte point.x)).toByte

theorem Curve.getElem?_valueAt (curve : Curve) (x : UInt8) (position : Nat) :
    (curve.valueAt x)[position]? =
      curve[position]?.map fun f => (f.eval (GF256.ofByte x)).toByte := by
  rw [valueAt, List.getElem?_map]

theorem fits_of_onCurve {curve : Curve} (hdegree : curve.DegreeLt points.length)
    (hon : ∀ point ∈ points, curve.Through point) {f : GF256[X]} (hf : curve[position]? = some f) :
    Fits points position f where
  degree_lt := hdegree f (List.mem_of_getElem? hf)
  byte_eq point hpoint := by
    rw [hon point hpoint, Curve.getElem?_valueAt, hf, Option.map_some]

/-- Two polynomials that fit take the same values at all places, which are as many as their degrees
allow. -/
theorem Fits.unique (hnodup : (points.map (·.x)).Nodup) {f g : GF256[X]}
    (hf : Fits points position f) (hg : Fits points position g) : f = g := by
  have hcard : (points.map fun point => GF256.ofByte point.x).toFinset.card = points.length := by
    rw [List.toFinset_card_of_nodup (nodup_nodes hnodup), List.length_map]
  apply eq_of_degrees_lt_of_eval_finset_eq (points.map fun point => GF256.ofByte point.x).toFinset
  · rw [hcard]
    exact hf.degree_lt
  · rw [hcard]
    exact hg.degree_lt
  · intro z hz
    obtain ⟨point, hpoint, rfl⟩ := List.mem_map.mp (List.mem_toFinset.mp hz)
    have hbyte := (hf.byte_eq point hpoint).symm.trans (hg.byte_eq point hpoint)
    exact GF256.toByte_injective (Option.some.inj hbyte)

/-- **Interpolation evaluates the one polynomial that fits.** Points of different places and values of
one length can be interpolated at every place, and at each position of the values one polynomial fits,
whose value there is the byte of the result. Other points are refused, and no weight ever divides by
zero. The products and quotients may as well be looked up in tables of logarithms. -/
theorem interpolate_eq_eval (points : List Point) (x : UInt8) :
    (points ≠ [] → (points.map (·.x)).Nodup → ∀ length,
      (∀ point ∈ points, point.value.length = length) →
      ∃ value, interpolate points x = .ok value ∧ value.length = length ∧
        ∀ position < length, (∃! f, Fits points position f) ∧
          ∀ f, Fits points position f →
            value[position]? = some (f.eval (GF256.ofByte x)).toByte) ∧
    (∀ fault, interpolate points x = .error fault ↔
      (points = [] ∧ fault = .set .noShares) ∨
      (¬ SameLength points ∧ fault = .set .valueLengths) ∨
      (SameLength points ∧ ¬ (points.map (·.x)).Nodup ∧ fault = .set .repeatedIndices)) ∧
    (∀ node, weight? (points.map fun point => GF256.ofByte point.x) node (GF256.ofByte x) ≠
      none) ∧
    ∀ a b : GF256, LogTables.mul a.toByte b.toByte = (a * b).toByte ∧
      LogTables.div? a.toByte b.toByte = (BinaryField.div? a b).map GF256.toByte := by
  -- every polynomial that fits is the one of the curve, and the curve has the interpolated values
  refine ⟨fun hne hnodup length hlength => ?_, fun _ => interpolate_eq_error_iff,
    fun node => weight?_ne_none _ node _,
    fun a b => ⟨LogTables.mul_toByte a b, LogTables.div?_toByte a b⟩⟩
  obtain ⟨curve, hcurve, hdegree, hon⟩ := exists_curve_through hnodup hlength
  refine ⟨curve.valueAt x, interpolate_of_onCurve hne hnodup hdegree hon x, ?_, ?_⟩
  · rw [Curve.length_valueAt, hcurve]
  · intro position hposition
    obtain ⟨f, hf⟩ : ∃ f, curve[position]? = some f := ⟨_, List.getElem?_eq_getElem (by omega)⟩
    have hfits : Fits points position f := fits_of_onCurve hdegree hon hf
    refine ⟨⟨f, hfits, fun g hg => hg.unique hnodup hfits⟩, fun g hg => ?_⟩
    rw [hg.unique hnodup hfits, Curve.getElem?_valueAt, hf, Option.map_some]

/-- A line at two places, and between them. -/
theorem interpolate_eq_eval_line :
    let points : List Point := [⟨1, [0x04, 0x99]⟩, ⟨2, [0x01, 0x6c]⟩]
    let f : GF256[X] := C ⟨0x53⟩ * X + C ⟨0xca⟩
    points ≠ [] ∧ (points.map (·.x)).Nodup ∧ (∀ point ∈ points, point.value.length = 2) ∧
      Fits points 1 f ∧ ∃ value, interpolate points 200 = .ok value ∧
        value[1]? = some (f.eval (GF256.ofByte 200)).toByte := by
  intro points f
  have hfits : Fits points 1 f := by
    refine ⟨degree_linear_lt, ?_⟩
    simp only [points, f, List.forall_mem_cons, eval_add, eval_mul, eval_C, eval_X]
    decide +kernel
  have hnodup : (points.map (·.x)).Nodup := by decide
  have hlength : ∀ point ∈ points, point.value.length = 2 := by decide
  obtain ⟨value, hvalue, -, hbytes⟩ := (interpolate_eq_eval points 200).1 (by decide) hnodup 2 hlength
  exact ⟨by decide, hnodup, hlength, hfits, value, hvalue, (hbytes 1 (by decide)).2 f hfits⟩

end ShamirBackup
