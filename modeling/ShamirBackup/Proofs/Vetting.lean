import Mathlib.Data.List.Pairwise
import ShamirBackup.Proofs.Grouping
import ShamirBackup.Proofs.Outcome

/-!
# Vetting

Combining first vets the shares: each is compared with the first one, and with the earlier ones of
its group, for the threshold with no more than the first of these. The comparisons are few, but they
settle all pairs: what has passed so far agrees, so its first member speaks for all of it
(`agreesWithFirst_iff`). The shares pass if and only if they are consistent (`Consistent`): they are
of one backup, each group agrees on its threshold, and no member is listed twice. Which fault shares
have that are not consistent depends on their order, but if no more than a repeated member is wrong
with them, the fault names the first member that is listed again (`checkMembers_of_repeat`).
-/

namespace ShamirBackup

/-! ### The first repetition in a list -/

/-- A list either has different keys throughout or a first entry that repeats an earlier key. -/
theorem nodup_or_exists_repeat {α β : Type} (key : α → β) (as : List α) :
    (as.map key).Nodup ∨ ∃ before a after, as = before ++ a :: after ∧ (before.map key).Nodup ∧
      key a ∈ before.map key := by
  induction as using List.reverseRecOn with
  | nil => exact .inl .nil
  | append_singleton as a ih =>
    rcases ih with hnodup | ⟨before, b, after, rfl, hnodup, hb⟩
    · by_cases ha : key a ∈ as.map key
      · exact .inr ⟨as, a, [], rfl, hnodup, ha⟩
      · left
        rw [List.map_append, List.map_singleton, ← List.concat_eq_append]
        exact hnodup.concat ha
    · exact .inr ⟨before, b, after ++ [a], by simp, hnodup, hb⟩

namespace Share

variable {a b : Share}

/-- What all shares of one backup have in common. -/
def common (share : Share) : Parameters × Threshold × ShareCount × Nat :=
  (share.metadata.toParameters, share.metadata.groupThreshold, share.metadata.groupCount,
    share.value.length)

theorem common_eq_iff : a.common = b.common ↔
    a.metadata.toParameters = b.metadata.toParameters ∧
      a.metadata.groupThreshold = b.metadata.groupThreshold ∧
      a.metadata.groupCount = b.metadata.groupCount ∧ a.value.length = b.value.length := by
  simp only [common, Prod.mk.injEq]

theorem mismatch?_eq_none_iff : a.mismatch? b = none ↔ a.common = b.common := by
  rcases a with ⟨⟨⟨ia, ea, xa⟩, ga, ta, na, ma, ka⟩, va, _, _⟩
  rcases b with ⟨⟨⟨ib, eb, xb⟩, gb, tb, nb, mb, kb⟩, vb, _, _⟩
  simp only [mismatch?, common, Prod.mk.injEq, Parameters.mk.injEq, ne_eq, ← not_and_or]
  split_ifs <;> simp_all

end Share

namespace Backup

/-- The shares are of one backup and of different members, and the members of a group agree on its
threshold. -/
structure Consistent (shares : List Share) : Prop where
  common_eq : ∀ a ∈ shares, ∀ b ∈ shares, a.common = b.common
  threshold_eq : ∀ a ∈ shares, ∀ b ∈ shares, a.groupIndex = b.groupIndex →
    a.memberThreshold = b.memberThreshold
  nodup_place : (shares.map Share.place).Nodup

/-- The flaws that vetting looks for. -/
def vettingFlaws : List SetFlaw :=
  [.identifiers, .extendableFlags, .exponents, .groupParameters, .valueLengths, .memberThresholds]

variable {shares earlier : List Share} {first share : Share} {fault : Fault}

/-! ### Against the first share -/

theorem mem_vettingFlaws_of_mismatch? {a b : Share} {flaw : SetFlaw}
    (h : a.mismatch? b = some flaw) : flaw ∈ vettingFlaws := by
  unfold Share.mismatch? at h
  split_ifs at h <;> cases h <;> decide

theorem outcome_checkSameBackup (first : Share) (shares : List Share) :
    (checkSameBackup first shares).outcome =
      match shares.findSome? first.mismatch? with
      | none => .ok ()
      | some flaw => .error (.set flaw) := by
  induction shares with
  | nil => rfl
  | cons share shares ih =>
    rw [checkSameBackup, List.findSome?_cons]
    cases first.mismatch? share with
    | none => exact ih
    | some flaw => rfl

theorem checkSameBackup_eq_ok_iff : (checkSameBackup first shares).outcome = .ok () ↔
    ∀ share ∈ shares, first.common = share.common := by
  simp only [← Share.mismatch?_eq_none_iff, ← List.findSome?_eq_none_iff, outcome_checkSameBackup]
  cases shares.findSome? first.mismatch? <;> simp

theorem fault_of_checkSameBackup (h : (checkSameBackup first shares).outcome = .error fault) :
    ∃ flaw ∈ vettingFlaws, fault = .set flaw := by
  rw [outcome_checkSameBackup] at h
  rcases hfind : shares.findSome? first.mismatch? with _ | flaw
  · rw [hfind] at h
    cases h
  · rw [hfind] at h
    cases h
    obtain ⟨share, -, hflaw⟩ := List.exists_of_findSome?_eq_some hfind
    exact ⟨flaw, mem_vettingFlaws_of_mismatch? hflaw, rfl⟩

/-! ### Against the earlier shares of the group -/

/-- Two shares that may be combined, as far as their groups go. -/
structure Compatible (a b : Share) : Prop where
  threshold_eq : a.groupIndex = b.groupIndex → a.memberThreshold = b.memberThreshold
  place_ne : a.place ≠ b.place

instance : Std.Symm Compatible where
  symm _ _ h := ⟨fun hgroup => (h.threshold_eq hgroup.symm).symm, h.place_ne.symm⟩

/-- The earlier members of the group agree with the share on the threshold. -/
def AgreeOnThreshold (earlier : List Share) (share : Share) : Prop :=
  ∀ other ∈ earlier, other.groupIndex = share.groupIndex →
    other.memberThreshold = share.memberThreshold

/-- The first of the earlier members of the group does. -/
def AgreesWithFirst (earlier : List Share) (share : Share) : Prop :=
  ∀ fellow ∈ (earlier.filter (·.groupIndex = share.groupIndex)).head?,
    fellow.memberThreshold = share.memberThreshold

instance : Decidable (AgreesWithFirst earlier share) :=
  inferInstanceAs (Decidable (∀ fellow ∈ (earlier.filter _).head?, _))

/-- Among compatible shares the first member of the group speaks for the others. -/
theorem agreesWithFirst_iff (h : earlier.Pairwise Compatible) :
    AgreesWithFirst earlier share ↔ AgreeOnThreshold earlier share := by
  constructor
  · intro hfirst other hother hgroup
    have hmem : other ∈ earlier.filter (·.groupIndex = share.groupIndex) := by
      simp [hother, hgroup]
    rcases hfellows : earlier.filter (·.groupIndex = share.groupIndex) with _ | ⟨fellow, fellows⟩
    · rw [hfellows] at hmem
      cases hmem
    have hfellow : fellow.memberThreshold = share.memberThreshold :=
      hfirst fellow (by rw [hfellows]; rfl)
    obtain ⟨hearlier, hindex⟩ := List.mem_filter.mp (hfellows ▸ List.mem_cons_self)
    -- The share has the threshold of the first fellow, and so has any other fellow.
    by_cases hsame : fellow = other
    · rw [← hsame, hfellow]
    · rw [← hfellow]
      refine ((h.forall hearlier hother hsame).threshold_eq ?_).symm
      rw [hgroup, of_decide_eq_true hindex]
  · intro hall fellow hfellow
    obtain ⟨hearlier, hgroup⟩ := List.mem_filter.mp (List.mem_of_mem_head? hfellow)
    exact hall fellow hearlier (of_decide_eq_true hgroup)

theorem forall_compatible_iff : (∀ other ∈ earlier, Compatible other share) ↔
    AgreeOnThreshold earlier share ∧ share.place ∉ earlier.map Share.place := by
  constructor
  · intro h
    refine ⟨fun other hother => (h other hother).threshold_eq, fun hmem => ?_⟩
    obtain ⟨other, hother, hplace⟩ := List.mem_map.mp hmem
    exact (h other hother).place_ne hplace
  · rintro ⟨hthreshold, hplace⟩ other hother
    exact ⟨hthreshold other hother, fun h => hplace (List.mem_map.mpr ⟨other, hother, h⟩)⟩

theorem outcome_checkMember (earlier : List Share) (share : Share) :
    (checkMember earlier share).outcome =
      if AgreesWithFirst earlier share then
        if share.place ∈ earlier.map Share.place then
          .error (.repeatedMember share.groupIndex share.memberIndex)
        else .ok ()
      else .error (.set .memberThresholds) := by
  have hthreshold : (earlier.filter (·.groupIndex = share.groupIndex)).head?.any
      (·.memberThreshold ≠ share.memberThreshold) = true ↔ ¬ AgreesWithFirst earlier share := by
    unfold AgreesWithFirst
    cases (earlier.filter (·.groupIndex = share.groupIndex)).head? <;> simp
  have hplace : (earlier.filter (·.groupIndex = share.groupIndex)).any
      (·.memberIndex = share.memberIndex) = true ↔ share.place ∈ earlier.map Share.place := by
    simp [Share.place]
  unfold checkMember
  simp only [hthreshold, hplace]
  split_ifs <;> rfl

theorem checkMember_eq_ok_iff (h : earlier.Pairwise Compatible) :
    (checkMember earlier share).outcome = .ok () ↔ (earlier ++ [share]).Pairwise Compatible := by
  have hpairs : (earlier ++ [share]).Pairwise Compatible ↔
      ∀ other ∈ earlier, Compatible other share := by
    simp [List.pairwise_append, h]
  rw [hpairs, forall_compatible_iff, ← agreesWithFirst_iff h, outcome_checkMember]
  split_ifs <;> simp [*]

theorem outcome_checkMembers_cons (earlier : List Share) (share : Share) (shares : List Share) :
    (checkMembers earlier (share :: shares)).outcome =
      (checkMember earlier share).outcome >>= fun _ =>
        (checkMembers (earlier ++ [share]) shares).outcome := by
  rw [checkMembers, Traced.outcome_bind]

theorem outcome_checkMembers_append (earlier before after : List Share) :
    (checkMembers earlier (before ++ after)).outcome =
      (checkMembers earlier before).outcome >>= fun _ =>
        (checkMembers (earlier ++ before) after).outcome := by
  induction before generalizing earlier with
  | nil => rw [List.append_nil]; rfl
  | cons share before ih =>
    simp only [List.cons_append, outcome_checkMembers_cons, ih, bind_assoc, List.append_assoc,
      List.nil_append]

/-- Comparing each share with the earlier ones of its group compares all pairs. -/
theorem checkMembers_eq_ok_iff (h : earlier.Pairwise Compatible) :
    (checkMembers earlier shares).outcome = .ok () ↔ (earlier ++ shares).Pairwise Compatible := by
  induction shares generalizing earlier with
  | nil => exact ⟨fun _ => by rwa [List.append_nil], fun _ => rfl⟩
  | cons share shares ih =>
    have hstep : (checkMember earlier share).outcome = .ok () ↔ _ := checkMember_eq_ok_iff h
    rw [outcome_checkMembers_cons, List.append_cons earlier share shares]
    rcases hcheck : (checkMember earlier share).outcome with fault | _
    · rw [hcheck] at hstep
      simp only [error_bind, reduceCtorEq, false_iff]
      exact fun hpairs => nomatch hstep.mpr (List.pairwise_append.mp hpairs).1
    · rw [ok_bind, ih (hstep.mp hcheck)]

theorem fault_of_checkMembers (h : (checkMembers earlier shares).outcome = .error fault) :
    fault = .set .memberThresholds ∨
      ∃ share ∈ shares, fault = .repeatedMember share.groupIndex share.memberIndex := by
  induction shares generalizing earlier with
  | nil => cases h
  | cons share shares ih =>
    rw [outcome_checkMembers_cons, outcome_checkMember] at h
    split_ifs at h
    · cases h
      exact .inr ⟨share, by simp, rfl⟩
    · rcases ih h with hthresholds | ⟨other, hother, hfault⟩
      · exact .inl hthresholds
      · exact .inr ⟨other, by simp [hother], hfault⟩
    · cases h
      exact .inl rfl

theorem pairwise_compatible_iff : shares.Pairwise Compatible ↔
    (∀ a ∈ shares, ∀ b ∈ shares, a.groupIndex = b.groupIndex →
      a.memberThreshold = b.memberThreshold) ∧ (shares.map Share.place).Nodup := by
  constructor
  · intro h
    refine ⟨fun a ha b hb hgroup => ?_, List.pairwise_map.mpr (h.imp Compatible.place_ne)⟩
    by_cases hab : a = b
    · rw [hab]
    · exact (h.forall ha hb hab).threshold_eq hgroup
  · rintro ⟨hthreshold, hnodup⟩
    refine (List.pairwise_map.mp hnodup).imp_of_mem fun {a b} ha hb hplace => ?_
    exact ⟨hthreshold a ha b hb, hplace⟩

/-- With nothing else wrong, the fault names the first member that is listed again. -/
theorem checkMembers_of_repeat {before after : List Share}
    (hthreshold : ∀ a ∈ before ++ share :: after, ∀ b ∈ before ++ share :: after,
      a.groupIndex = b.groupIndex → a.memberThreshold = b.memberThreshold)
    (hnodup : (before.map Share.place).Nodup) (hrepeat : share.place ∈ before.map Share.place) :
    (checkMembers [] (before ++ share :: after)).outcome =
      .error (.repeatedMember share.groupIndex share.memberIndex) := by
  have hpairs : before.Pairwise Compatible := by
    refine pairwise_compatible_iff.mpr ⟨fun a ha b hb => ?_, hnodup⟩
    exact hthreshold a (by simp [ha]) b (by simp [hb])
  have hbefore : (checkMembers [] before).outcome = .ok () :=
    (checkMembers_eq_ok_iff .nil).mpr hpairs
  have hagree : AgreesWithFirst before share := (agreesWithFirst_iff hpairs).mpr fun other hother =>
    hthreshold other (by simp [hother]) share (by simp)
  rw [outcome_checkMembers_append, hbefore, ok_bind, List.nil_append, outcome_checkMembers_cons,
    outcome_checkMember, if_pos hagree, if_pos hrepeat, error_bind]

/-! ### The whole -/

/-- What is left to do with vetted shares, of which one is given: to recover the groups and the
secret. -/
def recoverVetted (share : Share) (shares : List Share) : Except Fault EncryptedSecret :=
  let needed := share.metadata.groupThreshold.val
  if (represented shares).card < needed then
    .error (.tooFewGroups needed (represented shares).card)
  else do
    let points ← (recoverGroups needed (groupsOf shares)).outcome
    let value ← Sharing.recover needed points
    EncryptedSecret.ofValue share.metadata.toParameters value

theorem recoverVetted_congr {a b : Share} (h : a.common = b.common) (shares : List Share) :
    recoverVetted a shares = recoverVetted b shares := by
  have hparameters : a.metadata.toParameters = b.metadata.toParameters := congrArg (·.1) h
  have hthreshold : a.metadata.groupThreshold = b.metadata.groupThreshold := congrArg (·.2.1) h
  rw [recoverVetted, recoverVetted, hparameters, hthreshold]

theorem outcome_combine_cons (first : Share) (others : List Share) :
    (combine (first :: others)).outcome = (checkSameBackup first others).outcome >>= fun _ =>
      (checkMembers [] (first :: others)).outcome >>= fun _ =>
        recoverVetted first (first :: others) := by
  simp only [combine, recoverVetted, Traced.outcome_bind, Traced.outcome_report, ok_bind,
    length_groupsOf]
  congr! 5
  split_ifs
  · rfl
  · simp only [Traced.outcome_bind, Traced.outcome_report, Traced.outcome_lift, ok_bind]

theorem consistent_cons_iff {others : List Share} : Consistent (first :: others) ↔
    (∀ share ∈ others, first.common = share.common) ∧ (first :: others).Pairwise Compatible := by
  rw [pairwise_compatible_iff]
  constructor
  · rintro ⟨hcommon, hthreshold, hnodup⟩
    exact ⟨fun share hshare => hcommon _ (by simp) _ (by simp [hshare]), hthreshold, hnodup⟩
  · rintro ⟨hcommon, hthreshold, hnodup⟩
    have hfirst : ∀ share ∈ first :: others, first.common = share.common := by
      rintro share (_ | ⟨_, hshare⟩)
      · rfl
      · exact hcommon share hshare
    exact ⟨fun a ha b hb => (hfirst a ha).symm.trans (hfirst b hb), hthreshold, hnodup⟩

theorem outcome_combine_of_consistent (h : Consistent shares) (hshare : share ∈ shares) :
    (combine shares).outcome = recoverVetted share shares := by
  rcases shares with _ | ⟨first, others⟩
  · cases hshare
  obtain ⟨hcommon, hpairs⟩ := consistent_cons_iff.mp h
  rw [outcome_combine_cons, checkSameBackup_eq_ok_iff.mpr hcommon, ok_bind,
    (checkMembers_eq_ok_iff .nil).mpr hpairs, ok_bind]
  exact recoverVetted_congr (h.common_eq first (by simp) share hshare) _

/-- **Shares that are not consistent are rejected by the vetting.** -/
theorem exists_fault_of_not_consistent (h : ¬ Consistent shares) :
    ∃ fault, (combine shares).outcome = .error fault ∧
      ((∃ flaw ∈ vettingFlaws, fault = .set flaw) ∨
        ∃ share ∈ shares, fault = .repeatedMember share.groupIndex share.memberIndex) := by
  rcases shares with _ | ⟨first, others⟩
  · exact absurd ⟨by simp, by simp, .nil⟩ h
  rw [outcome_combine_cons]
  rcases hsame : (checkSameBackup first others).outcome with fault | _
  · exact ⟨fault, rfl, .inl (fault_of_checkSameBackup hsame)⟩
  rcases hmembers : (checkMembers [] (first :: others)).outcome with fault | _
  · refine ⟨fault, rfl, (fault_of_checkMembers hmembers).imp_left ?_⟩
    rintro rfl
    exact ⟨_, by decide, rfl⟩
  · have hcommon := checkSameBackup_eq_ok_iff.mp hsame
    have hpairs := (checkMembers_eq_ok_iff .nil).mp hmembers
    exact absurd (consistent_cons_iff.mpr ⟨hcommon, hpairs⟩) h

theorem consistent_of_combine_eq_ok {encrypted : EncryptedSecret}
    (h : (combine shares).outcome = .ok encrypted) : Consistent shares := by
  by_contra hnot
  obtain ⟨fault, hfault, -⟩ := exists_fault_of_not_consistent hnot
  rw [h] at hfault
  cases hfault

/-- Shares of one backup with nothing wrong but a repeated member are rejected for the first one. -/
theorem combine_of_repeat {before after : List Share}
    (hcommon : ∀ a ∈ before ++ share :: after, ∀ b ∈ before ++ share :: after,
      a.common = b.common)
    (hthreshold : ∀ a ∈ before ++ share :: after, ∀ b ∈ before ++ share :: after,
      a.groupIndex = b.groupIndex → a.memberThreshold = b.memberThreshold)
    (hnodup : (before.map Share.place).Nodup) (hrepeat : share.place ∈ before.map Share.place) :
    (combine (before ++ share :: after)).outcome =
      .error (.repeatedMember share.groupIndex share.memberIndex) := by
  have hmembers := checkMembers_of_repeat hthreshold hnodup hrepeat
  rcases hlist : before ++ share :: after with _ | ⟨first, others⟩
  · simp at hlist
  rw [hlist] at hcommon hmembers
  have hsame : (checkSameBackup first others).outcome = .ok () :=
    checkSameBackup_eq_ok_iff.mpr fun other hother =>
      hcommon first (by simp) other (by simp [hother])
  rw [outcome_combine_cons, hsame, ok_bind, hmembers, error_bind]

end Backup

end ShamirBackup
