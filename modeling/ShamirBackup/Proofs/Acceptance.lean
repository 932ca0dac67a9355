import ShamirBackup.Proofs.Sharing

/-!
# What recovering accepts

Points of any origin are accepted if and only if all of them lie on one curve that hides the secret
(`recover_eq_ok_iff`). So the result depends neither on their order nor on which of them come first.
All others are refused as a set (`recover_eq_ok_iff_accepted`), and those with different places and
values of one length for their digest or for a redundant point (`failsOnly_recover_of_places`). One
thing has to be ruled out for this, which is that the values are shorter than a digest
(`recover_eq_truncatedDigest_iff`). The parts of this are proved for any keyed hash and put together
for the one of backups.
-/

namespace ShamirBackup

variable {points : List Point} {x : UInt8} {value : List UInt8}

theorem Curve.DegreeLt.mono {curve : Curve} {m n : Nat} (h : curve.DegreeLt m) (hle : m ≤ n) :
    curve.DegreeLt n :=
  fun f hf => lt_of_lt_of_le (h f hf) (by exact_mod_cast hle)

/-- Interpolation succeeds only through different places, with values of one length. -/
theorem places_of_interpolate (h : interpolate points x = .ok value) :
    points ≠ [] ∧ (points.map (·.x)).Nodup ∧ SameLength points := by
  rcases points with _ | ⟨first, rest⟩
  · cases h
  simp only [interpolate] at h
  split_ifs at h with hlengths hnodup
  rw [any_length_ne_iff, not_not] at hlengths
  exact ⟨by simp, hnodup, hlengths⟩

/-- Points that interpolate at one place lie on a curve, and interpolate along it everywhere. -/
theorem exists_curve_interpolating (hne : points ≠ []) (hnodup : (points.map (·.x)).Nodup)
    {length : Nat} (hlength : ∀ point ∈ points, point.value.length = length) :
    ∃ curve : Curve, curve.length = length ∧ curve.DegreeLt points.length ∧
      (∀ point ∈ points, curve.Through point) ∧
      ∀ y, interpolate points y = .ok (curve.valueAt y) := by
  obtain ⟨curve, hcurve, hdegree, hon⟩ := exists_curve_through hnodup hlength
  exact ⟨curve, hcurve, hdegree, hon, interpolate_of_onCurve hne hnodup hdegree hon⟩

theorem failsOnly_interpolate :
    FailsOnly (fun fault => ∃ flaw, fault = .set flaw) (interpolate points x) := by
  intro fault h
  rcases interpolate_eq_error_iff.mp h with ⟨-, rfl⟩ | ⟨-, rfl⟩ | ⟨-, -, rfl⟩
  · exact ⟨_, rfl⟩
  · exact ⟨_, rfl⟩
  · exact ⟨_, rfl⟩

namespace Sharing

variable {threshold : Nat} {secret : List UInt8} {fault : Fault}

/-- Besides the faults of what it compares with, the comparison has one of its own. -/
theorem failsOnly_checkRedundant {valueAt : UInt8 → Except Fault (List UInt8)} {p : Fault → Prop}
    (hvalue : ∀ y, FailsOnly p (valueAt y)) (hredundant : p (.set .redundantShare)) :
    FailsOnly p (checkRedundant valueAt points) := by
  induction points with
  | nil => exact .ok _
  | cons point points ih =>
    refine .bind (hvalue point.x) fun value _ => ?_
    split_ifs
    · exact ih
    · exact .error hredundant

/-! ### Being cut short -/

/-- The first points can be interpolated, but no digest fits in their values. -/
structure CutShort (threshold : Nat) (points : List Point) : Prop where
  two_le : 2 ≤ threshold
  le_length : threshold ≤ points.length
  nodup_x : ((points.take threshold).map (·.x)).Nodup
  short : ∃ length < digestLength, ∀ point ∈ points.take threshold, point.value.length = length

theorem CutShort.exists_short (h : CutShort threshold points) :
    ∃ point ∈ points, point.value.length < digestLength := by
  obtain ⟨htwo, hle, -, length, hshort, hlength⟩ := h
  obtain ⟨point, hpoint⟩ : ∃ point, point ∈ points.take threshold := by
    apply List.exists_mem_of_length_pos
    rw [List.length_take_of_le hle]
    omega
  exact ⟨point, List.mem_of_mem_take hpoint, (hlength point hpoint).trans_lt hshort⟩

section Digests

variable [KeyedHash]

/-! ### Revealing -/

theorem hides_of_reveal {curve : Curve} (hone : threshold ≠ 1) (hdegree : curve.DegreeLt threshold)
    (hinterpolate : ∀ y, interpolate points y = .ok (curve.valueAt y))
    (h : reveal points = .ok secret) : Hides curve threshold secret := by
  rw [reveal_eq hinterpolate] at h
  split_ifs at h with hshort hdigest
  obtain rfl : curve.valueAt secretIndex = secret := Except.ok.inj h
  exact (hides_iff hone).mpr ⟨hdegree, rfl, hdigest⟩

theorem failsOnly_reveal_of_curve {curve : Curve} (hlength : digestLength ≤ curve.length)
    (hinterpolate : ∀ y, interpolate points y = .ok (curve.valueAt y)) :
    FailsOnly (· = .set .digest) (reveal points) := by
  rw [reveal_eq hinterpolate, if_neg (Nat.not_lt.mpr hlength)]
  split_ifs
  · exact .ok _
  · exact .error rfl

/-! ### Recovering -/

/-- Copies of a secret lie on a curve that hides it. -/
theorem exists_hides_of_copies (h : ∀ point ∈ points, point.value = secret) :
    ∃ curve, Hides curve 1 secret ∧ ∀ point ∈ points, curve.Through point := by
  have hhides := hides_const secret
  refine ⟨_, hhides, fun point hpoint => ?_⟩
  have hconst := Curve.valueAt_eq_of_degreeLt_one hhides.degreeLt secretIndex point.x
  rw [Curve.Through, h point hpoint, ← hconst, hhides.secret_eq]

theorem exists_hides_of_recover (h : recover threshold points = .ok secret) :
    1 ≤ threshold ∧ threshold ≤ points.length ∧ ((points.take threshold).map (·.x)).Nodup ∧
      ∃ curve, Hides curve threshold secret ∧ ∀ point ∈ points, curve.Through point := by
  have henough : ¬ (threshold = 0 ∨ points.length < threshold) := by
    intro hfew
    rw [recover_of_too_few hfew] at h
    cases h
  have hpos : 1 ≤ threshold := by omega
  have hle : threshold ≤ points.length := by omega
  refine ⟨hpos, hle, ?_⟩
  rcases base_of_enough hpos hle with ⟨rfl, first, others, rfl⟩ | ⟨base, others, htwo, rfl, rfl⟩
  · rw [recover_one_cons] at h
    obtain ⟨_, hcheck, hsecret⟩ := exists_of_bind_eq_ok h
    obtain rfl : first.value = secret := Except.ok.inj hsecret
    refine ⟨by simp, exists_hides_of_copies ?_⟩
    rintro point (_ | ⟨_, hpoint⟩)
    · rfl
    · exact (Except.ok.inj (checkRedundant_eq_ok_iff.mp hcheck point hpoint)).symm
  · rw [recover_append htwo] at h
    obtain ⟨found, hreveal, h⟩ := exists_of_bind_eq_ok h
    obtain ⟨_, hcheck, hfound⟩ := exists_of_bind_eq_ok h
    obtain rfl : found = secret := Except.ok.inj hfound
    obtain ⟨_, hinterpolate, -⟩ := exists_of_bind_eq_ok hreveal
    obtain ⟨hne, hnodup, length, hlength⟩ := places_of_interpolate hinterpolate
    obtain ⟨curve, -, hdegree, hon, heverywhere⟩ := exists_curve_interpolating hne hnodup hlength
    rw [List.take_left]
    refine ⟨hnodup, curve, hides_of_reveal (by omega) hdegree heverywhere hreveal,
      fun point hpoint => ?_⟩
    rcases List.mem_append.mp hpoint with hbase | hother
    · exact hon point hbase
    · have hvalue := checkRedundant_eq_ok_iff.mp hcheck point hother
      rw [heverywhere] at hvalue
      exact (Except.ok.inj hvalue).symm

/-- **Points are accepted if they lie on a curve that hides the secret, and only then.** As many of
them as the threshold have to be there, and the first of them to be different. -/
theorem recover_eq_ok_iff : recover threshold points = .ok secret ↔
    1 ≤ threshold ∧ threshold ≤ points.length ∧ ((points.take threshold).map (·.x)).Nodup ∧
      ∃ curve, Hides curve threshold secret ∧ ∀ point ∈ points, curve.Through point := by
  refine ⟨exists_hides_of_recover, ?_⟩
  rintro ⟨hpos, hle, hnodup, curve, hhides, hon⟩
  exact recover_of_hides hhides hpos hle hnodup hon

/-- A recovered secret is as long as each value. -/
theorem length_of_recover (h : recover threshold points = .ok secret) {point : Point}
    (hpoint : point ∈ points) : secret.length = point.value.length := by
  obtain ⟨-, -, -, curve, hhides, hon⟩ := exists_hides_of_recover h
  have hthrough : point.value = curve.valueAt point.x := hon point hpoint
  rw [hthrough, Curve.length_valueAt, hhides.length_eq]

/-- Enough points of different places, with values of one length, are refused for their digest or
for a redundant point. -/
theorem failsOnly_recover_of_places (hpos : 1 ≤ threshold) (hle : threshold ≤ points.length)
    (hnodup : (points.map (·.x)).Nodup) {length : Nat} (hdigest : digestLength ≤ length)
    (hlength : ∀ point ∈ points, point.value.length = length) :
    FailsOnly (fun fault => fault = .set .digest ∨ fault = .set .redundantShare)
      (recover threshold points) := by
  rcases base_of_enough hpos hle with ⟨rfl, first, others, rfl⟩ | ⟨base, others, htwo, rfl, rfl⟩
  · rw [recover_one_cons]
    exact .bind (failsOnly_checkRedundant (fun _ => .ok _) (.inr rfl)) fun _ _ => .ok _
  · have hne : base ≠ [] := List.ne_nil_of_length_pos (by omega)
    obtain ⟨curve, rfl, -, -, hinterpolate⟩ := exists_curve_interpolating hne
      (hnodup.sublist ((List.sublist_append_left ..).map _))
      fun point hpoint => hlength point (by simp [hpoint])
    rw [recover_append htwo]
    refine .bind ((failsOnly_reveal_of_curve hdigest hinterpolate).mono fun _ => .inl) fun _ _ => ?_
    refine .bind (failsOnly_checkRedundant (fun y => ?_) (.inr rfl)) fun _ _ => .ok _
    rw [hinterpolate]
    exact .ok _

/-! ### Being accepted -/

/-- Enough points are copies of the secret if one of them is enough. Otherwise the first of them
have different places, and all of them lie on a curve that holds the secret and its digest. -/
def Accepted (threshold : Nat) (points : List Point) (secret : List UInt8) : Prop :=
  1 ≤ threshold ∧ threshold ≤ points.length ∧
    ((threshold = 1 ∧ ∀ point ∈ points, point.value = secret) ∨
      (2 ≤ threshold ∧ ((points.take threshold).map (·.x)).Nodup ∧ SameLength points ∧
        ∃ curve : Curve, curve.DegreeLt threshold ∧ (∀ point ∈ points, curve.Through point) ∧
          curve.valueAt secretIndex = secret ∧
          digest ((curve.valueAt digestIndex).drop digestLength) secret =
            (curve.valueAt digestIndex).take digestLength))

theorem accepted_iff : Accepted threshold points secret ↔
    1 ≤ threshold ∧ threshold ≤ points.length ∧ ((points.take threshold).map (·.x)).Nodup ∧
      ∃ curve, Hides curve threshold secret ∧ ∀ point ∈ points, curve.Through point := by
  refine and_congr_right fun hpos => and_congr_right fun hle => ?_
  by_cases hone : threshold = 1
  · subst hone
    have htwo : ¬ 2 ≤ 1 := by omega
    obtain ⟨first, others, rfl⟩ := List.exists_cons_of_length_pos (Nat.lt_of_lt_of_le hpos hle)
    simp only [htwo, false_and, or_false, true_and, List.take_succ_cons, List.take_zero,
      List.map_cons, List.map_nil, List.nodup_singleton]
    refine ⟨exists_hides_of_copies, ?_⟩
    rintro ⟨curve, hhides, hon⟩ point hpoint
    exact hhides.value_eq (hon point hpoint)
  · have htwo : 2 ≤ threshold := by omega
    simp only [hone, false_and, false_or, htwo, true_and, hides_iff hone]
    refine and_congr_right fun _ => ⟨?_, ?_⟩
    · rintro ⟨-, curve, hdegree, hon, hsecret, hdigest⟩
      exact ⟨curve, ⟨hdegree, hsecret, hdigest⟩, hon⟩
    · rintro ⟨curve, ⟨hdegree, hsecret, hdigest⟩, hon⟩
      refine ⟨⟨curve.length, fun point hpoint => ?_⟩, curve, hdegree, hon, hsecret, hdigest⟩
      rw [hon point hpoint, Curve.length_valueAt]

/-! ### Faults -/

theorem failsOnly_reveal :
    FailsOnly (fun fault => (∃ flaw, fault = .set flaw) ∨
      (fault = .truncatedDigest ∧ (points.map (·.x)).Nodup ∧
        ∃ length < digestLength, ∀ point ∈ points, point.value.length = length))
      (reveal points) := by
  -- the place of the secret comes first, so its fault is the one that shows
  rcases hvalue : interpolate points secretIndex with fault | value
  · have hreveal : reveal points = .error fault := by
      rw [reveal, hvalue]
      rfl
    rw [hreveal]
    exact .error (.inl (failsOnly_interpolate fault hvalue))
  · obtain ⟨hne, hnodup, length, hlength⟩ := places_of_interpolate hvalue
    obtain ⟨curve, rfl, -, -, hinterpolate⟩ := exists_curve_interpolating hne hnodup hlength
    rw [reveal_eq hinterpolate]
    split_ifs with hshort hdigest
    · exact .error (.inr ⟨rfl, hnodup, _, hshort, hlength⟩)
    · exact .ok _
    · exact .error (.inl ⟨_, rfl⟩)

/-- What recovering fails with: the points are refused as a set or cut short. -/
theorem failsOnly_recover (threshold : Nat) (points : List Point) :
    FailsOnly (fun fault => (∃ flaw, fault = .set flaw) ∨
      (fault = .truncatedDigest ∧ CutShort threshold points)) (recover threshold points) := by
  by_cases hfew : threshold = 0 ∨ points.length < threshold
  · rw [recover_of_too_few hfew]
    exact .error (.inl ⟨_, rfl⟩)
  have hpos : 1 ≤ threshold := by omega
  have hle : threshold ≤ points.length := by omega
  rcases base_of_enough hpos hle with ⟨rfl, first, others, rfl⟩ | ⟨base, others, htwo, rfl, rfl⟩
  · rw [recover_one_cons]
    exact .bind (failsOnly_checkRedundant (fun _ => .ok _) (.inl ⟨_, rfl⟩)) fun _ _ => .ok _
  · rw [recover_append htwo]
    refine .bind (failsOnly_reveal.mono fun fault => Or.imp_right ?_) fun _ _ =>
      .bind (failsOnly_checkRedundant ?_ (.inl ⟨_, rfl⟩)) fun _ _ => .ok _
    · intro hcut
      refine ⟨hcut.1, htwo, hle, ?_, ?_⟩ <;> rw [List.take_left]
      · exact hcut.2.1
      · exact hcut.2.2
    · exact fun _ => failsOnly_interpolate.mono fun _ => .inl

/-- **A digest is cut short where enough points fix a curve of fewer bytes**, and nowhere else. -/
theorem recover_eq_truncatedDigest_iff :
    recover threshold points = .error .truncatedDigest ↔ CutShort threshold points := by
  constructor
  · intro h
    rcases failsOnly_recover threshold points _ h with ⟨_, hset⟩ | ⟨-, hcut⟩
    · cases hset
    · exact hcut
  · rintro ⟨htwo, hle, hnodup, length, hshort, hlength⟩
    -- the redundant points are not reached
    have hbase : (points.take threshold).length = threshold := List.length_take_of_le hle
    have hne : points.take threshold ≠ [] := List.ne_nil_of_length_pos (by omega)
    obtain ⟨curve, rfl, -, -, hinterpolate⟩ := exists_curve_interpolating hne hnodup hlength
    have happend : recover threshold (points.take threshold ++ points.drop threshold) = _ :=
      hbase ▸ recover_append (hbase.symm ▸ htwo)
    rw [List.take_append_drop, reveal_eq hinterpolate, if_pos hshort, error_bind] at happend
    exact happend

end Digests

/-! ### The conditions together -/

/-- **Points are accepted on these conditions, and otherwise refused as a set.** How far the checks
get before one of them fails makes no difference, as long as digests fit in the values. -/
theorem recover_eq_ok_iff_accepted (threshold : Nat) (points : List Point) :
    (∀ secret, recover threshold points = .ok secret ↔ Accepted threshold points secret) ∧
    ((∀ point ∈ points, digestLength ≤ point.value.length) →
      (∀ secret, ¬ Accepted threshold points secret) →
      ∃ flaw, recover threshold points = .error (.set flaw)) := by
  have haccept : ∀ secret, recover threshold points = .ok secret ↔
      Accepted threshold points secret := fun _ => recover_eq_ok_iff.trans accepted_iff.symm
  refine ⟨haccept, fun hlength hnone => ?_⟩
  rcases hrecover : recover threshold points with fault | secret
  · rcases failsOnly_recover threshold points fault hrecover with ⟨flaw, rfl⟩ | ⟨-, hcut⟩
    · exact ⟨flaw, rfl⟩
    · obtain ⟨point, hpoint, hshort⟩ := hcut.exists_short
      exact absurd hshort (Nat.not_lt.mpr (hlength point hpoint))
  · exact absurd ((haccept secret).mp hrecover) (hnone secret)

/-- The points that sharing starts from are accepted, with the digest and the secret among them. A
point given twice is not. -/
theorem recover_eq_ok_iff_accepted_base :
    let secret : List UInt8 := [1, 2, 3, 4, 5, 6]
    let twice : List Point := [⟨0, secret⟩, ⟨0, secret⟩]
    recover 2 (base [] [7, 7] secret) = .ok secret ∧
      (∀ point ∈ twice, digestLength ≤ point.value.length) ∧ (∀ other, ¬ Accepted 2 twice other) ∧
      ∃ flaw, recover 2 twice = .error (.set flaw) := by
  intro secret twice
  obtain ⟨curve, hhides, hon⟩ := exists_hides_of_base [] [7, 7] secret (by decide) (by simp) rfl
  have hnodup : (((base [] [7, 7] secret).take 2).map (·.x)).Nodup := by
    show ((base [] [7, 7] secret).map (·.x)).Nodup
    exact nodup_base_x (by decide) [7, 7] secret
  have haccepted : Accepted 2 (base [] [7, 7] secret) secret :=
    accepted_iff.mpr ⟨by decide, le_rfl, hnodup, curve, hhides, hon⟩
  have hlength : ∀ point ∈ twice, digestLength ≤ point.value.length := by decide
  have hnone : ∀ other, ¬ Accepted 2 twice other := by
    intro other hother
    obtain ⟨-, -, hplaces, -⟩ := accepted_iff.mp hother
    exact absurd hplaces (by decide)
  exact ⟨((recover_eq_ok_iff_accepted 2 _).1 secret).mpr haccepted, hlength, hnone,
    (recover_eq_ok_iff_accepted 2 twice).2 hlength hnone⟩

end Sharing

end ShamirBackup
