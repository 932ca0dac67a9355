import Mathlib.Data.FinEnum
import Mathlib.Probability.Distributions.Uniform
import ShamirBackup.Proofs.Sharing

/-!
# Secrecy below the threshold

The digest share and the secret are two points of the curve of a sharing. So the values at
`threshold - 2` share indices determine the curve, and so do the values at the first `threshold - 2`
of them, which are the random blocks. Every choice of values at the seen indices comes from exactly
one choice of the random blocks (`existsUnique_blocks_of_view`), whatever the digest is, and what is
seen has the same distribution for all secrets (`view_independent`). Up to the distributions, any
keyed hash makes the digest.
-/

namespace ShamirBackup

/-! ### A stream that starts with given bytes -/

namespace Entropy

theorem peek_ofBytes {bytes : List UInt8} {start n : Nat} (h : n ≤ (bytes.drop start).length) :
    ((ofBytes ⟨bytes.toArray⟩).skip start).peek n = (bytes.drop start).take n := by
  rw [List.length_drop] at h
  refine List.ext_getElem (by simp [h]) fun i hi _ => ?_
  rw [length_peek] at hi
  have hlt : start + i < bytes.length := by omega
  simp [peek, skip, ofBytes, hlt]

/-- Blocks of one length at the front of the rest of the stream are drawn one by one. -/
theorem blocks_ofBytes {bytes rest : List UInt8} {blocks : List (List UInt8)} {start n : Nat}
    (hlength : ∀ block ∈ blocks, block.length = n)
    (hbytes : bytes.drop start = blocks.flatten ++ rest) :
    ((ofBytes ⟨bytes.toArray⟩).skip start).blocks n blocks.length = blocks := by
  induction blocks generalizing start with
  | nil => rfl
  | cons block blocks ih =>
    have hblock := hlength block (by simp)
    rw [List.flatten_cons, List.append_assoc] at hbytes
    have hnext : bytes.drop (start + n) = blocks.flatten ++ rest := by
      rw [← List.drop_drop, hbytes, List.drop_left' hblock]
    rw [List.length_cons, blocks_succ, skip_skip, ih (fun b hb => hlength b (by simp [hb])) hnext,
      peek_ofBytes (by rw [hbytes]; simp [hblock]), hbytes, List.take_left' hblock]

end Entropy

namespace Sharing

/-! ### Random blocks -/

/-- `count` blocks of `length` bytes. -/
abbrev Blocks (count length : Nat) := Fin count → Fin length → UInt8

namespace Blocks

variable {count length : Nat}

def lists (blocks : Blocks count length) : List (List UInt8) :=
  List.ofFn fun i => List.ofFn (blocks i)

/-- The stream that starts with the blocks and goes on with other bytes. -/
def followedBy (blocks : Blocks count length) (random : List UInt8) : Entropy :=
  .ofBytes ⟨(blocks.lists.flatten ++ random).toArray⟩

theorem length_lists (blocks : Blocks count length) : blocks.lists.length = count :=
  List.length_ofFn ..

theorem length_of_mem_lists {blocks : Blocks count length} {block : List UInt8}
    (h : block ∈ blocks.lists) : block.length = length := by
  obtain ⟨i, rfl⟩ := List.mem_ofFn.mp h
  exact List.length_ofFn ..

theorem lists_injective : Function.Injective (lists : Blocks count length → List (List UInt8)) := by
  intro blocks other h
  funext i
  exact List.ofFn_injective (congrFun (List.ofFn_injective h) i)

theorem exists_lists_eq {values : List (List UInt8)} (hcount : values.length = count)
    (hlength : ∀ value ∈ values, value.length = length) :
    ∃ blocks : Blocks count length, blocks.lists = values := by
  refine ⟨fun i j => (values.getD i []).getD j 0, ?_⟩
  refine List.ext_getElem (by rw [length_lists, hcount]) fun i _ hi => ?_
  have hvalue := hlength values[i] (List.getElem_mem hi)
  refine List.ext_getElem (by simp [lists, hvalue]) fun j _ hj => ?_
  simp [lists, hi, hj]

theorem blocks_followedBy (blocks : Blocks count length) (random : List UInt8) :
    (blocks.followedBy random).blocks length count = blocks.lists := by
  have hstart : (blocks.lists.flatten ++ random).drop 0 = blocks.lists.flatten ++ random :=
    List.drop_zero
  have h := Entropy.blocks_ofBytes (fun block hblock => length_of_mem_lists hblock) hstart
  rwa [length_lists] at h

theorem peek_followedBy (blocks : Blocks count length) (random : List UInt8) :
    ((blocks.followedBy random).skip (count * length)).peek random.length = random := by
  have hflatten : blocks.lists.flatten.length = count * length := by
    rw [lists, List.length_flatten, List.map_ofFn]
    simp [Function.comp_def, List.ofFn_const, List.sum_replicate]
  have hdrop : (blocks.lists.flatten ++ random).drop (count * length) = random :=
    List.drop_left' hflatten
  rw [followedBy, Entropy.peek_ofBytes (by rw [hdrop]), hdrop, List.take_length]

end Blocks

/-! ### What the holders of some shares see -/

/-- The outcome of sharing a secret with the given random bytes. -/
def dealt [KeyedHash] (threshold count : Nat) (secret : List UInt8) {length : Nat}
    (blocks : Blocks (threshold - 2) length) (random : List UInt8) : Except Fault (List Point) :=
  (split threshold count secret (blocks.followedBy random)).1.outcome

/-- The shares at the given indices. -/
def view (seen : Finset Nat) (outcome : Except Fault (List Point)) (i : seen) : Option Point :=
  outcome.toOption.bind fun points => points[i.val]?

section

variable {threshold count length : Nat} {secret random : List UInt8} {seen : Finset Nat}
variable (htwo : 2 ≤ threshold) (hle : threshold ≤ count) (hmax : count ≤ maxShares)
  (hleast : leastLength ≤ length) (hsecret : secret.length = length)
  (hrandom : random.length = length - digestLength)

theorem view_points {curve : Curve} (hseen : ∀ i ∈ seen, i < count) (i : seen) :
    view seen (.ok (curve.points count)) i = some (curve.pointAt i) := by
  have hi := hseen i i.2
  simp [view, Except.toOption, Curve.points, hi]

/-- The blocks are the first values of a curve of their length. -/
theorem exists_blocks_of_curve {curve : Curve} (number : Nat) (hlength : curve.length = length) :
    ∃ blocks : Blocks number length,
      blocks.lists = (List.range number).map fun i => curve.valueAt (UInt8.ofNat i) := by
  refine Blocks.exists_lists_eq (by simp) fun block hblock => ?_
  obtain ⟨i, -, rfl⟩ := List.mem_map.mp hblock
  rw [Curve.length_valueAt, hlength]

variable [KeyedHash]

theorem through_base_iff {curve : Curve} {number : Nat} (blocks : Blocks number length) :
    (∀ point ∈ base blocks.lists random secret, curve.Through point) ↔
      blocks.lists = (List.range number).map (fun i => curve.valueAt (UInt8.ofNat i)) ∧
        digest random secret ++ random = curve.valueAt digestIndex ∧
        secret = curve.valueAt secretIndex := by
  rw [base_eq_pinned, through_pinned_iff, blocks.length_lists]
  refine and_congr_left fun _ => ?_
  constructor
  · intro hvalues
    refine List.ext_getElem (by simp [blocks.length_lists]) fun i hi hi' => ?_
    rw [List.length_map, List.length_range] at hi'
    rw [List.getElem_map, List.getElem_range, ← hvalues i (List.mem_range.mpr hi')]
    simp [hi]
  · intro hlists i hi
    rw [List.mem_range] at hi
    simp [hlists, hi]

include htwo hle hmax hleast hsecret hrandom

/-- Every curve through the base of a sharing gives its shares. -/
theorem dealt_eq_ok {curve : Curve} {blocks : Blocks (threshold - 2) length}
    (hdegree : curve.DegreeLt threshold)
    (hon : ∀ point ∈ base blocks.lists random secret, curve.Through point) :
    dealt threshold count secret blocks random = .ok (curve.points count) := by
  subst hsecret
  have hknown := blocks.length_lists
  have hdeal : deal count blocks.lists random secret = .ok (curve.points count) := by
    refine deal_eq_ok (by omega) hmax ?_ hon
    rwa [hknown, Nat.sub_add_cancel htwo]
  refine (yields_split_of_deal htwo hle hmax hleast ?_).outcome
  rw [blocks.blocks_followedBy, ← hrandom, blocks.peek_followedBy, hdeal]

/-- A sharing runs along a curve through its base. -/
theorem exists_curve_of_blocks (blocks : Blocks (threshold - 2) length) :
    ∃ curve : Curve, curve.DegreeLt threshold ∧
      (∀ point ∈ base blocks.lists random secret, curve.Through point) ∧
      dealt threshold count secret blocks random = .ok (curve.points count) := by
  have hdigest : digestLength ≤ length := Nat.le_trans (by decide) hleast
  obtain ⟨curve, hhides, hon⟩ := exists_hides_of_base blocks.lists random secret
    (by rw [blocks.length_lists]; omega)
    (fun block hblock => by rw [hsecret]; exact Blocks.length_of_mem_lists hblock)
    (by rw [hrandom, hsecret]; exact Nat.add_sub_cancel' hdigest)
  have hdegree := hhides.degreeLt
  rw [blocks.length_lists, Nat.sub_add_cancel htwo] at hdegree
  exact ⟨curve, hdegree, hon,
    dealt_eq_ok htwo hle hmax hleast hsecret hrandom hdegree hon⟩

/-- **Every choice of values is seen for exactly one choice of the random blocks.** -/
theorem existsUnique_blocks_of_view (hseen : ∀ i ∈ seen, i < count)
    (hcard : seen.card = threshold - 2) {value : Nat → List UInt8}
    (hvalue : ∀ i ∈ seen, (value i).length = length) :
    ∃! blocks : Blocks (threshold - 2) length, ∀ i : seen,
      view seen (dealt threshold count secret blocks random) i =
        some ⟨UInt8.ofNat i, value i⟩ := by
  have hdigest : digestLength ≤ length := Nat.le_trans (by decide) hleast
  have hthreshold : seen.toList.length + 2 = threshold := by
    rw [Finset.length_toList, hcard, Nat.sub_add_cancel htwo]
  have hlt : ∀ i ∈ seen.toList, i < maxShares := fun i hi =>
    Nat.lt_of_lt_of_le (hseen i (Finset.mem_toList.mp hi)) hmax
  set fixed := pinned seen.toList value (digest random secret ++ random) secret with hfixed
  obtain ⟨curve, hdegree, hon⟩ : ∃ curve : Curve, curve.DegreeLt threshold ∧
      ∀ point ∈ fixed, curve.Through point := by
    refine exists_curve_through_pinned hthreshold seen.nodup_toList hlt (fun i hi => ?_) ?_
    · rw [hvalue i (Finset.mem_toList.mp hi), hsecret]
    · rw [List.length_append, length_digest, hrandom, hsecret, Nat.add_sub_cancel' hdigest]
  obtain ⟨hvalues, hends⟩ := through_pinned_iff.mp hon
  obtain ⟨blocks, hblocks⟩ := exists_blocks_of_curve (threshold - 2)
    (by rw [← curve.length_valueAt secretIndex, ← hends.2, hsecret] : curve.length = length)
  refine ⟨blocks, ?_, ?_⟩
  · -- The curve through the seen values runs through the base of these blocks too.
    have hbase : ∀ point ∈ base blocks.lists random secret, curve.Through point :=
      (through_base_iff blocks).mpr ⟨hblocks, hends⟩
    intro i
    rw [dealt_eq_ok htwo hle hmax hleast hsecret hrandom hdegree hbase, view_points hseen,
      Curve.pointAt, hvalues i (Finset.mem_toList.mpr i.2)]
  · intro other hother
    obtain ⟨curve', hdegree', hon', hdealt⟩ :=
      exists_curve_of_blocks htwo hle hmax hleast hsecret hrandom other
    obtain ⟨hblocks', hends'⟩ := (through_base_iff other).mp hon'
    -- The other sharing runs through the seen values, so along the same curve.
    have hthrough : ∀ point ∈ fixed, curve'.Through point := by
      refine through_pinned_iff.mpr ⟨fun i hi => ?_, hends'⟩
      have hview := hother ⟨i, Finset.mem_toList.mp hi⟩
      rw [hdealt, view_points hseen] at hview
      exact (congrArg Point.value (Option.some.inj hview)).symm
    have hlength : fixed.length = threshold := by rw [hfixed, length_pinned, hthreshold]
    have hne : fixed ≠ [] := List.ne_nil_of_length_pos (by omega)
    have hsame : ∀ x, curve'.valueAt x = curve.valueAt x :=
      valueAt_eq_of_through hne (nodup_pinned_x seen.nodup_toList hlt) (by rwa [hlength])
        (by rwa [hlength]) hthrough hon
    apply Blocks.lists_injective
    rw [hblocks, hblocks']
    exact List.map_congr_left fun i _ => hsame _

/-- **What is seen of one secret is seen of another**, for other random blocks. -/
theorem existsUnique_blocks_same_view {other : List UInt8} (hother : other.length = length)
    (hseen : ∀ i ∈ seen, i < count) (hcard : seen.card = threshold - 2)
    (blocks : Blocks (threshold - 2) length) :
    ∃! blocks' : Blocks (threshold - 2) length, ∀ i : seen, ∃ point,
      view seen (dealt threshold count secret blocks random) i = some point ∧
        view seen (dealt threshold count other blocks' random) i = some point := by
  obtain ⟨curve, -, hon, hdealt⟩ :=
    exists_curve_of_blocks htwo hle hmax hleast hsecret hrandom blocks
  have hlength : curve.length = length := by
    rw [← curve.length_valueAt secretIndex, ← ((through_base_iff blocks).mp hon).2.2, hsecret]
  have hvalue : ∀ i ∈ seen, (curve.pointAt i).value.length = length := fun i _ => by
    rw [Curve.pointAt, Curve.length_valueAt, hlength]
  obtain ⟨blocks', hviews, hunique⟩ :=
    existsUnique_blocks_of_view htwo hle hmax hleast hother hrandom hseen hcard hvalue
  rw [hdealt]
  refine ⟨blocks', fun i => ⟨curve.pointAt i, view_points hseen i, hviews i⟩, ?_⟩
  intro blocks'' hsame
  refine hunique blocks'' fun i => ?_
  obtain ⟨point, hview, hview'⟩ := hsame i
  rw [view_points hseen] at hview
  rw [hview', ← hview]
  rfl

/-- The random blocks of one secret correspond to those of another, with the same shares seen. -/
theorem exists_equiv_same_view {other : List UInt8} (hother : other.length = length)
    (hseen : ∀ i ∈ seen, i < count) (hcard : seen.card = threshold - 2) :
    ∃ e : Blocks (threshold - 2) length ≃ Blocks (threshold - 2) length, ∀ blocks,
      view seen (dealt threshold count secret blocks random) =
        view seen (dealt threshold count other (e blocks) random) := by
  choose f hf hunique using
    existsUnique_blocks_same_view htwo hle hmax hleast hsecret hrandom hother hseen hcard
  have hsame : ∀ blocks, view seen (dealt threshold count secret blocks random) =
      view seen (dealt threshold count other (f blocks) random) := by
    intro blocks
    funext i
    obtain ⟨point, hview, hview'⟩ := hf blocks i
    rw [hview, hview']
  have hinjective : Function.Injective f := by
    intro blocks blocks' hblocks
    -- Both correspond to the same blocks of the other secret, which have one partner only.
    obtain ⟨back, -, hback⟩ := existsUnique_blocks_same_view htwo hle hmax hleast hother hrandom
      hsecret hseen hcard (f blocks)
    have hpartner : ∀ b, f b = f blocks → b = back := by
      intro b hb
      refine hback b fun i => ?_
      obtain ⟨point, hview, hview'⟩ := hf b i
      exact ⟨point, by rw [← hb, hview'], hview⟩
    rw [hpartner blocks rfl, hpartner blocks' hblocks.symm]
  exact ⟨.ofBijective f (Finite.injective_iff_bijective.mp hinjective), hsame⟩

end

/-! ### Distributions -/

theorem uniform_map_equiv {α : Type} [Fintype α] [Nonempty α] (e : α ≃ α) :
    (PMF.uniformOfFintype α).map e = PMF.uniformOfFintype α := by
  ext a
  rw [PMF.map_apply, tsum_eq_single (e.symm a), if_pos (e.apply_symm_apply a).symm]
  · simp only [PMF.uniformOfFintype_apply]
  · intro b hb
    refine if_neg fun h => hb ?_
    rw [h, e.symm_apply_apply]

/-- **Two shares below the threshold, nothing is said about the secret.** For any two secrets of one
length and any `threshold - 2` share indices: whatever the random blocks of the one secret, exactly
one choice of them gives the same shares of the other, with the same bytes behind the digest. So the
shares that are seen have one distribution for both. -/
theorem view_independent (threshold count length : Nat) (secret other : List UInt8)
    (seen : Finset Nat) (htwo : 2 ≤ threshold) (hle : threshold ≤ count) (hmax : count ≤ 16)
    (hleast : 16 ≤ length) (hsecret : secret.length = length) (hother : other.length = length)
    (hseen : ∀ i ∈ seen, i < count) (hcard : seen.card = threshold - 2) :
    (∀ (random : Fin (length - 4) → UInt8) (blocks : Blocks (threshold - 2) length),
      ∃! blocks' : Blocks (threshold - 2) length, ∀ i : seen, ∃ point,
        view seen (dealt threshold count secret blocks (List.ofFn random)) i = some point ∧
          view seen (dealt threshold count other blocks' (List.ofFn random)) i = some point) ∧
      (PMF.uniformOfFintype (Blocks (threshold - 2) length × (Fin (length - 4) → UInt8))).map
          (fun draws => view seen (dealt threshold count secret draws.1 (List.ofFn draws.2))) =
        (PMF.uniformOfFintype (Blocks (threshold - 2) length × (Fin (length - 4) → UInt8))).map
          (fun draws => view seen (dealt threshold count other draws.1 (List.ofFn draws.2))) := by
  have hrandom : ∀ random : Fin (length - 4) → UInt8,
      (List.ofFn random).length = length - digestLength := fun random => List.length_ofFn ..
  refine ⟨fun random blocks => ?_, ?_⟩
  · exact existsUnique_blocks_same_view htwo hle hmax hleast hsecret (hrandom random) hother hseen
      hcard blocks
  · have hequiv := fun random => exists_equiv_same_view htwo hle hmax hleast hsecret
      (hrandom random) hother hseen hcard
    choose e he using hequiv
    have hviews : (fun draws : Blocks (threshold - 2) length × (Fin (length - 4) → UInt8) =>
          view seen (dealt threshold count secret draws.1 (List.ofFn draws.2))) =
        (fun draws => view seen (dealt threshold count other draws.1 (List.ofFn draws.2))) ∘
          Equiv.prodCongrLeft e := by
      funext draws
      exact he draws.2 draws.1
    rw [hviews, ← PMF.map_comp, uniform_map_equiv]

/-- Shares 1 and 3 of five, where four are needed: 1 is one of the random blocks, 3 is not. -/
theorem view_independent_four_of_five :
    let secret : List UInt8 := List.replicate 16 0x5a
    let other : List UInt8 := List.replicate 16 0xa5
    let random : List UInt8 := List.ofFn fun _ : Fin 12 => 9
    let seen : Finset Nat := {1, 3}
    (2 ≤ 4 ∧ 4 ≤ 5 ∧ 5 ≤ 16 ∧ secret.length = 16 ∧ other.length = 16 ∧ (∀ i ∈ seen, i < 5) ∧
      seen.card = 4 - 2) ∧
    ∃! blocks : Blocks 2 16, ∀ i : seen, ∃ point,
      view seen (dealt 4 5 secret (fun _ _ => 7 : Blocks 2 16) random) i = some point ∧
        view seen (dealt 4 5 other blocks random) i = some point := by
  intro secret other random seen
  refine ⟨by decide, ?_⟩
  exact (view_independent 4 5 16 secret other seen (by decide) (by decide) (by decide) (by decide)
    (by decide) (by decide) (by decide) (by decide)).1 (fun _ => 9) fun _ _ => 7

end Sharing

end ShamirBackup
