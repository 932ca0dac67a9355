import ShamirBackup.Proofs.Interpolation
import ShamirBackup.Proofs.Outcome
import ShamirBackup.Sharing

/-!
# Sharing and recovering

`Hides curve threshold secret` says that a curve is one that sharing may have drawn: its degree is
below the threshold, the secret is its value at 255, and a digest of the secret stands at 254.
Splitting yields the first points of such a curve (`yields_split`), and from any points of it, as
many as the threshold and the first of them different, recovering finds the secret
(`recover_of_hides`). Both hold for any keyed hash, and so for the one of backups
(`recover_of_split`).
-/

namespace ShamirBackup

open Polynomial

/-! ### Places of shares -/

theorem ofNat_eq_iff_of_lt {i j : Nat} (hi : i < 256) (hj : j < 256) :
    UInt8.ofNat i = UInt8.ofNat j ↔ i = j := by
  rw [← UInt8.toNat_inj, UInt8.toNat_ofNat_of_lt' hi, UInt8.toNat_ofNat_of_lt' hj]

theorem nodup_map_ofNat {indices : List Nat} (hnodup : indices.Nodup)
    (hlt : ∀ i ∈ indices, i < 256) : (indices.map UInt8.ofNat).Nodup :=
  hnodup.map_on fun i hi j hj h => (ofNat_eq_iff_of_lt (hlt i hi) (hlt j hj)).mp h

namespace Curve

/-- The point of the curve at a share index. -/
noncomputable def pointAt (curve : Curve) (index : Nat) : Point :=
  ⟨UInt8.ofNat index, curve.valueAt (UInt8.ofNat index)⟩

/-- The points of the curve at the indices below `count`. -/
noncomputable def points (curve : Curve) (count : Nat) : List Point :=
  (List.range count).map curve.pointAt

theorem through_pointAt (curve : Curve) (index : Nat) : curve.Through (curve.pointAt index) := rfl

theorem through_of_mem_points {curve : Curve} {count : Nat} {point : Point}
    (h : point ∈ curve.points count) : curve.Through point := by
  obtain ⟨i, -, rfl⟩ := List.mem_map.mp h
  exact curve.through_pointAt i

theorem points_append_range' (curve : Curve) {known count : Nat} (h : known ≤ count) :
    curve.points known ++ (List.range' known (count - known)).map curve.pointAt =
      curve.points count := by
  rw [points, points, ← List.map_append, List.range_eq_range', List.range_eq_range']
  have hjoin := List.range'_append_1 (s := 0) (m := known) (n := count - known)
  rw [Nat.zero_add, Nat.add_sub_cancel' h] at hjoin
  rw [hjoin]

/-- A curve of degree below one is the same everywhere. -/
theorem valueAt_eq_of_degreeLt_one {curve : Curve} (h : curve.DegreeLt 1) (x y : UInt8) :
    curve.valueAt x = curve.valueAt y := by
  refine List.map_congr_left fun f hf => ?_
  have hconst : f = C (f.coeff 0) :=
    eq_C_of_degree_le_zero (Nat.WithBot.lt_one_iff_le_zero.mp (by simpa using h f hf))
  rw [hconst, eval_C, eval_C]

end Curve

namespace Sharing

variable {curve : Curve} {threshold count : Nat} {secret : List UInt8} {points : List Point}
variable {indices : List Nat} {value : Nat → List UInt8} {digestShare : List UInt8}

/-! ### Points at share indices -/

/-- Points at share indices, with a digest share and a secret behind them. -/
def pinned (indices : List Nat) (value : Nat → List UInt8) (digestShare secret : List UInt8) :
    List Point :=
  indices.map (fun i => ⟨UInt8.ofNat i, value i⟩) ++
    [⟨digestIndex, digestShare⟩, ⟨secretIndex, secret⟩]

theorem length_pinned :
    (pinned indices value digestShare secret).length = indices.length + 2 := by
  simp [pinned]

/-- The places are different: share indices are below 254. -/
theorem nodup_pinned_x (hnodup : indices.Nodup) (hlt : ∀ i ∈ indices, i < maxShares) :
    ((pinned indices value digestShare secret).map (·.x)).Nodup := by
  have hxs : (pinned indices value digestShare secret).map (·.x) =
      (indices ++ [254, 255]).map UInt8.ofNat := by
    rw [pinned, List.map_append, List.map_append, List.map_map]
    rfl
  rw [hxs]
  refine nodup_map_ofNat (List.nodup_append.mpr ⟨hnodup, by decide, ?_⟩) fun i hi => ?_
  · intro i hi j hj
    have hi' : i < 16 := hlt i hi
    fin_cases hj <;> simp <;> omega
  · rcases List.mem_append.mp hi with hi | hi
    · exact Nat.lt_trans (hlt i hi) (by decide)
    · fin_cases hi <;> decide

theorem through_pinned_iff :
    (∀ point ∈ pinned indices value digestShare secret, curve.Through point) ↔
      (∀ i ∈ indices, value i = curve.valueAt (UInt8.ofNat i)) ∧
        digestShare = curve.valueAt digestIndex ∧ secret = curve.valueAt secretIndex := by
  simp [pinned, Curve.Through, or_imp, forall_and]

theorem exists_curve_through_pinned (hthreshold : indices.length + 2 = threshold)
    (hnodup : indices.Nodup) (hlt : ∀ i ∈ indices, i < maxShares)
    (hvalue : ∀ i ∈ indices, (value i).length = secret.length)
    (hdigestShare : digestShare.length = secret.length) :
    ∃ curve : Curve, curve.DegreeLt threshold ∧
      ∀ point ∈ pinned indices value digestShare secret, curve.Through point := by
  have hlength : ∀ point ∈ pinned indices value digestShare secret,
      point.value.length = secret.length := by
    intro point hpoint
    simp only [pinned, List.mem_append, List.mem_map, List.mem_cons, List.not_mem_nil,
      or_false] at hpoint
    rcases hpoint with ⟨i, hi, rfl⟩ | rfl | rfl
    · exact hvalue i hi
    · exact hdigestShare
    · rfl
  obtain ⟨curve, -, hdegree, hon⟩ := exists_curve_through (nodup_pinned_x hnodup hlt) hlength
  rw [length_pinned, hthreshold] at hdegree
  exact ⟨curve, hdegree, hon⟩

/-! ### Parts of sharing without a digest -/

/-- Besides the random shares, sharing draws what stands behind the digest. -/
theorem randomLength_eq {length : Nat} (hpos : 1 ≤ threshold) (hone : threshold ≠ 1)
    (hlength : digestLength ≤ length) :
    randomLength threshold length = (threshold - 2) * length + (length - digestLength) := by
  obtain ⟨t, rfl⟩ : ∃ t, threshold = t + 2 := ⟨threshold - 2, by omega⟩
  have hsucc : t + 2 - 1 = t + 1 := rfl
  rw [randomLength, if_neg hone, Nat.add_sub_cancel, hsucc, Nat.succ_mul]
  omega

theorem checkRedundant_eq_ok_iff {valueAt : UInt8 → Except Fault (List UInt8)} :
    checkRedundant valueAt points = .ok () ↔
      ∀ point ∈ points, valueAt point.x = .ok point.value := by
  induction points with
  | nil => exact ⟨fun _ => by simp, fun _ => rfl⟩
  | cons point points ih =>
    rw [checkRedundant, List.forall_mem_cons, ← ih]
    rcases valueAt point.x with fault | expected
    · simp
    · rw [ok_bind, Except.ok.injEq]
      split_ifs with hvalue
      · simp [hvalue]
      · exact ⟨nofun, fun h => absurd h.1 hvalue⟩

/-- Enough points are a first one and others if one is enough, and else a base and others. -/
theorem base_of_enough (hpos : 1 ≤ threshold) (hle : threshold ≤ points.length) :
    (threshold = 1 ∧ ∃ first others, points = first :: others) ∨
      ∃ base others, 2 ≤ base.length ∧ threshold = base.length ∧ points = base ++ others := by
  by_cases hone : threshold = 1
  · left
    exact ⟨hone, List.exists_cons_of_length_pos (Nat.lt_of_lt_of_le hpos hle)⟩
  · right
    have hlength : (points.take threshold).length = threshold := List.length_take_of_le hle
    exact ⟨points.take threshold, points.drop threshold, by omega, hlength.symm,
      (List.take_append_drop ..).symm⟩

section Digests

variable [KeyedHash] {random : List UInt8} {randomShares : List (List UInt8)}

theorem length_digest (random secret : List UInt8) :
    (digest random secret).length = digestLength := by
  rw [digest, List.length_take, KeyedHash.length_tag]
  rfl

/-- The curve may have been drawn for the secret. With a threshold of one there is no digest. -/
structure Hides (curve : Curve) (threshold : Nat) (secret : List UInt8) : Prop where
  degreeLt : curve.DegreeLt threshold
  secret_eq : curve.valueAt secretIndex = secret
  digest_eq : threshold ≠ 1 →
    ∃ random, curve.valueAt digestIndex = digest random secret ++ random

theorem Hides.length_eq (h : Hides curve threshold secret) : curve.length = secret.length := by
  rw [← h.secret_eq, Curve.length_valueAt]

/-! ### Splitting -/

theorem base_eq_pinned (randomShares : List (List UInt8)) (random secret : List UInt8) :
    base randomShares random secret = pinned (List.range randomShares.length)
      (fun i => randomShares.getD i []) (digest random secret ++ random) secret := by
  rw [base, pinned]
  congr 1
  refine List.ext_getElem (by simp) fun i hi _ => ?_
  rw [List.length_mapIdx] at hi
  simp [hi]

theorem nodup_base_x (hcount : randomShares.length ≤ maxShares) (random secret : List UInt8) :
    ((base randomShares random secret).map (·.x)).Nodup := by
  rw [base_eq_pinned]
  refine nodup_pinned_x List.nodup_range fun i hi => ?_
  exact Nat.lt_of_lt_of_le (List.mem_range.mp hi) hcount

theorem length_base (randomShares : List (List UInt8)) (random secret : List UInt8) :
    (base randomShares random secret).length = randomShares.length + 2 := by
  simp [base]

/-- The points that fix the polynomials lie on a curve that hides the secret. -/
theorem exists_hides_of_base (randomShares : List (List UInt8)) (random secret : List UInt8)
    (hcount : randomShares.length ≤ maxShares)
    (hshares : ∀ share ∈ randomShares, share.length = secret.length)
    (hrandom : digestLength + random.length = secret.length) :
    ∃ curve, Hides curve (randomShares.length + 2) secret ∧
      ∀ point ∈ base randomShares random secret, curve.Through point := by
  rw [base_eq_pinned]
  obtain ⟨curve, hdegree, hon⟩ : ∃ curve : Curve, curve.DegreeLt (randomShares.length + 2) ∧
      ∀ point ∈ pinned (List.range randomShares.length) (fun i => randomShares.getD i [])
        (digest random secret ++ random) secret, curve.Through point := by
    refine exists_curve_through_pinned (by rw [List.length_range]) List.nodup_range ?_ ?_ ?_
    · intro i hi
      exact Nat.lt_of_lt_of_le (List.mem_range.mp hi) hcount
    · intro i hi
      rw [List.mem_range] at hi
      simpa [hi] using hshares _ (List.getElem_mem hi)
    · rw [List.length_append, length_digest, hrandom]
  obtain ⟨-, hdigest, hsecret⟩ := through_pinned_iff.mp hon
  exact ⟨curve, ⟨hdegree, hsecret.symm, fun _ => ⟨random, hdigest.symm⟩⟩, hon⟩

/-- The random shares are the first points of every curve through the base. -/
theorem take_base (hon : ∀ point ∈ base randomShares random secret, curve.Through point) :
    (base randomShares random secret).take randomShares.length =
      curve.points randomShares.length := by
  rw [base_eq_pinned] at hon ⊢
  rw [pinned, List.take_left' (by simp), Curve.points]
  exact List.map_congr_left fun i hi => Point.ext rfl ((through_pinned_iff.mp hon).1 i hi)

/-- Dealing gives the first points of every curve of small degree through the base. -/
theorem deal_eq_ok {randomShares : List (List UInt8)} {random secret : List UInt8}
    (hcount : randomShares.length ≤ count) (hmax : count ≤ maxShares)
    (hdegree : curve.DegreeLt (randomShares.length + 2))
    (hon : ∀ point ∈ base randomShares random secret, curve.Through point) :
    deal count randomShares random secret = .ok (curve.points count) := by
  have hinterpolate : ∀ x, interpolate (base randomShares random secret) x =
      .ok (curve.valueAt x) := by
    refine interpolate_of_onCurve ?_ (nodup_base_x (Nat.le_trans hcount hmax) random secret) ?_ hon
    · exact List.ne_nil_of_length_pos (by rw [length_base]; omega)
    · rwa [length_base]
  have hderived : (List.range' randomShares.length (count - randomShares.length)).mapM
      (fun i => do
        pure (Point.mk (UInt8.ofNat i)
          (← interpolate (base randomShares random secret) (UInt8.ofNat i)))) =
      Except.ok ((List.range' randomShares.length (count - randomShares.length)).map
        curve.pointAt) := by
    refine mapM_eq_ok fun i _ => ?_
    rw [hinterpolate]
    rfl
  rw [deal, hderived, take_base hon, ok_bind, curve.points_append_range' hcount]
  rfl

/-- Plain copies are the points of a constant curve. -/
theorem hides_const (secret : List UInt8) :
    Hides (secret.map fun byte => C (GF256.ofByte byte)) 1 secret := by
  refine ⟨?_, ?_, fun h => absurd rfl h⟩
  · intro f hf
    obtain ⟨byte, -, rfl⟩ := List.mem_map.mp hf
    exact lt_of_le_of_lt degree_C_le (by decide)
  · simp [Curve.valueAt, List.map_map, Function.comp_def]

/-- With a threshold of two or more, splitting deals with the random bytes that come next. -/
theorem yields_split_of_deal {source : Entropy} (htwo : 2 ≤ threshold) (hle : threshold ≤ count)
    (hmax : count ≤ maxShares) (hlength : leastLength ≤ secret.length)
    (hdeal : deal count (source.blocks secret.length (threshold - 2))
      ((source.skip ((threshold - 2) * secret.length)).peek (secret.length - digestLength)) secret =
        .ok points) :
    (split threshold count secret).Yields source points
      (source.skip (randomLength threshold secret.length)) := by
  have hrange : ¬ (threshold = 0 ∨ count < threshold) := by omega
  have hone : threshold ≠ 1 := by omega
  have hdigest : digestLength ≤ secret.length := Nat.le_trans (by decide) hlength
  rw [split, if_neg hrange, if_neg (Nat.not_lt.mpr hmax), if_neg (Nat.not_lt.mpr hlength),
    if_neg hone, randomLength_eq (by omega) hone hdigest, ← Entropy.skip_skip]
  exact .bind (.drawBlocks ..) (.bind (.draw _) (.ofExcept hdeal))

/-- **Splitting yields points of a curve that hides the secret**, and takes its random bytes. -/
theorem yields_split (source : Entropy) (hpos : 1 ≤ threshold) (hle : threshold ≤ count)
    (hmax : count ≤ maxShares) (hlength : leastLength ≤ secret.length) :
    ∃ curve, Hides curve threshold secret ∧
      (split threshold count secret).Yields source (curve.points count)
        (source.skip (randomLength threshold secret.length)) := by
  by_cases hone : threshold = 1
  · subst hone
    have hrange : ¬ (1 = 0 ∨ count < 1) := by omega
    have hconst := hides_const secret
    refine ⟨_, hconst, ?_⟩
    rw [split, if_neg hrange, if_neg (Nat.not_lt.mpr hmax), if_neg (Nat.not_lt.mpr hlength),
      if_pos rfl, randomLength, if_pos rfl, Entropy.skip_zero]
    have hpoints : (List.range count).map (fun i => Point.mk (UInt8.ofNat i) secret) =
        Curve.points (secret.map fun byte => C (GF256.ofByte byte)) count := by
      refine List.map_congr_left fun i _ => Point.ext rfl (hconst.secret_eq.symm.trans ?_)
      exact Curve.valueAt_eq_of_degreeLt_one hconst.degreeLt ..
    rw [hpoints]
    exact .pure _
  · have hdigest : digestLength ≤ secret.length := Nat.le_trans (by decide) hlength
    have hthreshold : threshold - 2 + 2 = threshold := by omega
    set randomShares := source.blocks secret.length (threshold - 2) with hshares
    set random := (source.skip ((threshold - 2) * secret.length)).peek
      (secret.length - digestLength) with hrandom
    have hknown : randomShares.length = threshold - 2 := Entropy.length_blocks ..
    obtain ⟨curve, hhides, hon⟩ := exists_hides_of_base randomShares random secret
      (by omega) (fun share hshare => Entropy.length_of_mem_blocks hshare)
      (by rw [hrandom, Entropy.length_peek, Nat.add_sub_cancel' hdigest])
    have hdeal : deal count randomShares random secret = .ok (curve.points count) :=
      deal_eq_ok (by omega) hmax hhides.degreeLt hon
    rw [hknown, hthreshold] at hhides
    exact ⟨curve, hhides, yields_split_of_deal (by omega) hle hmax hlength hdeal⟩

/-! ### Recovering -/

/-- The digest is compared with the front of what stands in its place, and keyed with the rest. -/
theorem hides_iff (hone : threshold ≠ 1) : Hides curve threshold secret ↔
    curve.DegreeLt threshold ∧ curve.valueAt secretIndex = secret ∧
      digest ((curve.valueAt digestIndex).drop digestLength) secret =
        (curve.valueAt digestIndex).take digestLength := by
  constructor
  · intro h
    obtain ⟨random, hdigest⟩ := h.digest_eq hone
    have hlength := length_digest random secret
    refine ⟨h.degreeLt, h.secret_eq, ?_⟩
    rw [hdigest, List.drop_left' hlength, List.take_left' hlength]
  · rintro ⟨hdegree, hsecret, hdigest⟩
    refine ⟨hdegree, hsecret, fun _ => ⟨(curve.valueAt digestIndex).drop digestLength, ?_⟩⟩
    rw [hdigest, List.take_append_drop]

theorem Hides.digestLength_le (h : Hides curve threshold secret) (hone : threshold ≠ 1) :
    digestLength ≤ curve.length := by
  obtain ⟨random, hdigest⟩ := h.digest_eq hone
  rw [← Curve.length_valueAt curve digestIndex, hdigest, List.length_append, length_digest]
  omega

/-- What points reveal that fix a curve. -/
theorem reveal_eq (hinterpolate : ∀ x, interpolate points x = .ok (curve.valueAt x)) :
    reveal points =
      if curve.length < digestLength then .error .truncatedDigest
      else if digest ((curve.valueAt digestIndex).drop digestLength) (curve.valueAt secretIndex) =
        (curve.valueAt digestIndex).take digestLength then .ok (curve.valueAt secretIndex)
      else .error (.set .digest) := by
  rw [reveal, hinterpolate, hinterpolate, ok_bind, ok_bind, Curve.length_valueAt]
  rfl

/-- From points that fix the curve, the secret and its digest come out, and they agree. -/
theorem reveal_eq_ok (hhides : Hides curve threshold secret) (hone : threshold ≠ 1)
    (hinterpolate : ∀ x, interpolate points x = .ok (curve.valueAt x)) :
    reveal points = .ok secret := by
  obtain ⟨-, hsecret, hdigest⟩ := (hides_iff hone).mp hhides
  rw [reveal_eq hinterpolate, if_neg (Nat.not_lt.mpr (hhides.digestLength_le hone)), hsecret,
    if_pos hdigest]

theorem recover_of_too_few (h : threshold = 0 ∨ points.length < threshold) :
    recover threshold points = .error (.set .belowThreshold) := by
  unfold recover
  rcases h with rfl | hfew
  · rfl
  · split
    · rfl
    · exact if_pos hfew

theorem recover_one_cons (first : Point) (others : List Point) :
    recover 1 (first :: others) =
      checkRedundant (fun _ => .ok first.value) others >>= fun _ => .ok first.value := by
  have hfew : ¬ (first :: others).length < 1 := by simp
  simp only [recover, List.take_succ_cons, if_neg hfew, if_true, List.drop_succ_cons,
    List.drop_zero]
  rfl

theorem recover_append {base others : List Point} (htwo : 2 ≤ base.length) :
    recover base.length (base ++ others) = reveal base >>= fun secret =>
      checkRedundant (interpolate base) others >>= fun _ => .ok secret := by
  have hfew : ¬ (base ++ others).length < base.length := by simp
  have hone : base.length ≠ 1 := by omega
  simp only [recover, List.take_left, List.drop_left, if_neg hfew, if_neg hone]
  rcases base with _ | ⟨first, rest⟩
  · simp at htwo
  · rfl

/-- With a threshold of one the points are copies. -/
theorem Hides.value_eq (hhides : Hides curve 1 secret) {point : Point}
    (hon : curve.Through point) : point.value = secret := by
  rw [hon, ← hhides.secret_eq]
  exact Curve.valueAt_eq_of_degreeLt_one hhides.degreeLt ..

/-- **Recovering finds the secret** from points of a curve that hides it. Only the first of them, as
many as the threshold, have to be different. -/
theorem recover_of_hides (hhides : Hides curve threshold secret) (hpos : 1 ≤ threshold)
    (hle : threshold ≤ points.length) (hnodup : ((points.take threshold).map (·.x)).Nodup)
    (hon : ∀ point ∈ points, curve.Through point) : recover threshold points = .ok secret := by
  rcases base_of_enough hpos hle with ⟨rfl, first, others, rfl⟩ | ⟨base, others, htwo, rfl, rfl⟩
  · have hfirst : first.value = secret := hhides.value_eq (hon first (by simp))
    rw [recover_one_cons, checkRedundant_eq_ok_iff.mpr, hfirst, ok_bind]
    intro point hpoint
    rw [hfirst, hhides.value_eq (hon point (by simp [hpoint]))]
  · rw [List.take_left] at hnodup
    have hne : base ≠ [] := List.ne_nil_of_length_pos (by omega)
    have hinterpolate : ∀ x, interpolate base x = .ok (curve.valueAt x) :=
      interpolate_of_onCurve hne hnodup hhides.degreeLt fun point hpoint =>
        hon point (by simp [hpoint])
    rw [recover_append htwo, reveal_eq_ok hhides (by omega) hinterpolate, ok_bind,
      checkRedundant_eq_ok_iff.mpr, ok_bind]
    intro point hpoint
    rw [hinterpolate, hon point (by simp [hpoint])]

end Digests

/-! ### The round trip -/

/-- **Any `threshold` shares recover the secret.** Sharing succeeds with one share for each place
below `count`, in order and as long as the secret, and any list of different ones of them, in any
order and of any number from the threshold on, gives the secret back. -/
theorem recover_of_split (threshold count : Nat) (secret : List UInt8) (source : Entropy)
    (hpos : 1 ≤ threshold) (hle : threshold ≤ count) (hmax : count ≤ 16)
    (hlength : 16 ≤ secret.length) :
    ∃ points, (split threshold count secret source).1.outcome = .ok points ∧
      points.map (fun point => point.x.toNat) = List.range count ∧
      (∀ point ∈ points, point.value.length = secret.length) ∧
      ∀ chosen : List Point, (∀ point ∈ chosen, point ∈ points) →
        (chosen.map (·.x)).Nodup → threshold ≤ chosen.length →
        recover threshold chosen = .ok secret := by
  obtain ⟨curve, hhides, hsplit⟩ := yields_split source hpos hle hmax hlength
  refine ⟨curve.points count, hsplit.outcome, ?_, ?_, ?_⟩
  · rw [Curve.points, List.map_map]
    refine (List.map_congr_left fun i hi => ?_).trans (List.map_id _)
    rw [List.mem_range] at hi
    exact UInt8.toNat_ofNat_of_lt' (Nat.lt_of_lt_of_le hi (Nat.le_trans hmax (by decide)))
  · intro point hpoint
    rw [Curve.through_of_mem_points hpoint, Curve.length_valueAt, hhides.length_eq]
  · intro chosen hchosen hnodup henough
    refine recover_of_hides hhides hpos henough ?_ fun point hpoint =>
      Curve.through_of_mem_points (hchosen point hpoint)
    exact hnodup.sublist ((List.take_sublist ..).map _)

/-- Three shares with a threshold of two: the last two recover the secret in reverse order. -/
theorem recover_of_split_two_of_three :
    (1 ≤ 2 ∧ 2 ≤ 3 ∧ 3 ≤ 16 ∧ 16 ≤ (List.replicate 16 (0x5a : UInt8)).length) ∧
      ∃ a b c, (split 2 3 (List.replicate 16 0x5a) (Entropy.ofBytes ⟨#[1, 2, 3]⟩)).1.outcome =
          .ok [a, b, c] ∧ recover 2 [c, b] = .ok (List.replicate 16 0x5a) := by
  refine ⟨by decide, ?_⟩
  obtain ⟨points, hok, hx, -, hrecover⟩ := recover_of_split 2 3 (List.replicate 16 0x5a)
    (Entropy.ofBytes ⟨#[1, 2, 3]⟩) (by decide) (by decide) (by decide) (by decide)
  match points, hx with
  | [a, b, c], hx =>
    refine ⟨a, b, c, hok, hrecover [c, b] (by simp) ?_ (by simp)⟩
    simp only [List.map_cons, List.map_nil, List.cons.injEq, List.range, List.range.loop] at hx
    simp only [List.map_cons, List.map_nil, List.nodup_cons, List.mem_singleton]
    refine ⟨fun h => ?_, by simp⟩
    rw [h] at hx
    omega

end Sharing

end ShamirBackup
