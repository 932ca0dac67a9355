import ShamirBackup.Proofs.Agreement
import ShamirBackup.Proofs.Dealing

/-!
# What is reported

Reports must not tell anything about secrets. So two runs that differ in nothing but secrets must
report the same, as far as both of them get: `Traced.InStep` says this of two computations and is
passed on by their steps. Splitting reports identifiers and counts of the plan, whatever the secret
and the passphrase are. Combining reports what the metadata of the shares say and the lengths of
their values, and the values decide only where it stops (`Backup.reports_alike`).
-/

namespace ShamirBackup

variable {ε α β γ δ : Type}

/-! ### Two runs in step -/

namespace Traced

/-- The runs report the same up to the failure of one of them. Results are related by `R`, on which
the next steps may rely. -/
structure InStep (R : α → β → Prop) (a : Traced ε α) (b : Traced ε β) : Prop where
  comparable : a.events <+: b.events ∨ b.events <+: a.events
  left : ∀ x, a.outcome = .ok x → b.events <+: a.events
  right : ∀ y, b.outcome = .ok y → a.events <+: b.events
  related : ∀ x y, a.outcome = .ok x → b.outcome = .ok y → R x y

/-- Who sees the reports alone cannot tell the runs apart, unless one of them fails, and then not by
what both of them report. -/
structure Alike (a : Traced ε α) (b : Traced ε β) : Prop where
  events_eq : ∀ x y, a.outcome = .ok x → b.outcome = .ok y → a.events = b.events
  comparable : a.events <+: b.events ∨ b.events <+: a.events

namespace InStep

variable {R : α → β → Prop} {S : γ → δ → Prop} {a : Traced ε α} {b : Traced ε β}

theorem alike (h : InStep R a b) : Alike a b where
  events_eq x y hx hy := (h.right y hy).eq_of_length_le (h.left x hx).length_le
  comparable := h.comparable

theorem refl (a : Traced ε α) : InStep Eq a a where
  comparable := .inl List.prefix_rfl
  left _ _ := List.prefix_rfl
  right _ _ := List.prefix_rfl
  related _ _ hx hy := Except.ok.inj (hx.symm.trans hy)

/-- Runs that report nothing. -/
theorem of_silent (ha : a.events = []) (hb : b.events = [])
    (h : ∀ x y, a.outcome = .ok x → b.outcome = .ok y → R x y) : InStep R a b where
  comparable := by rw [ha]; exact .inl List.nil_prefix
  left _ _ := by rw [hb]; exact List.nil_prefix
  right _ _ := by rw [ha]; exact List.nil_prefix
  related := h

theorem pure {x : α} {y : β} (h : R x y) :
    InStep R (Pure.pure x : Traced ε α) (Pure.pure y : Traced ε β) := by
  apply of_silent rfl rfl
  intro x' y' hx hy
  cases hx
  cases hy
  exact h

theorem bind {f : α → Traced ε γ} {g : β → Traced ε δ} (h : InStep R a b)
    (hnext : ∀ x y, R x y → InStep S (f x) (g y)) : InStep S (a >>= f) (b >>= g) := by
  obtain ⟨hcomparable, hleft, hright, hrelated⟩ := h
  rcases a with ⟨events, fault | x⟩
  · rcases b with ⟨others, fault' | y⟩
    · exact ⟨hcomparable, nofun, nofun, nofun⟩
    · have hle : events <+: others ++ (g y).events :=
        (hright y rfl).trans (List.prefix_append ..)
      exact ⟨.inl hle, nofun, fun _ _ => hle, nofun⟩
  · rcases b with ⟨others, fault' | y⟩
    · have hle : others <+: events ++ (f x).events := (hleft x rfl).trans (List.prefix_append ..)
      exact ⟨.inr hle, fun _ _ => hle, nofun, nofun⟩
    · obtain rfl : events = others := (hright y rfl).eq_of_length_le (hleft x rfl).length_le
      obtain ⟨hcomparable', hleft', hright', hrelated'⟩ := hnext x y (hrelated x y rfl rfl)
      have hmore : ∀ {more others : List Event}, more <+: others →
          events ++ more <+: events ++ others := (List.prefix_append_right_inj events).mpr
      exact ⟨hcomparable'.imp hmore hmore, fun z hz => hmore (hleft' z hz),
        fun z hz => hmore (hright' z hz), hrelated'⟩

/-- The runs begin with the same step. -/
theorem bind_same (a : Traced ε α) {f : α → Traced ε γ} {g : α → Traced ε δ}
    (hnext : ∀ x, InStep S (f x) (g x)) : InStep S (a >>= f) (a >>= g) := by
  apply (refl a).bind
  rintro x _ rfl
  exact hnext x

theorem lift (x : Except ε α) (y : Except ε β) :
    InStep (fun _ _ => True) (liftM x : Traced ε α) (liftM y : Traced ε β) :=
  .of_silent rfl rfl fun _ _ _ _ => trivial

theorem fail (x y : ε) : InStep R (Traced.fail x) (Traced.fail y) := .of_silent rfl rfl nofun

theorem mapM {Q : α → β → Prop} {f : α → Traced ε γ} {g : β → Traced ε δ} {as : List α}
    {bs : List β} (h : List.Forall₂ Q as bs) (hstep : ∀ x y, Q x y → InStep S (f x) (g y)) :
    InStep (List.Forall₂ S) (as.mapM f) (bs.mapM g) := by
  induction h with
  | nil => exact pure .nil
  | cons hab _ ih =>
    rw [List.mapM_cons, List.mapM_cons]
    refine (hstep _ _ hab).bind fun _ _ hhead => ih.bind fun _ _ htail => ?_
    exact pure (.cons hhead htail)

end InStep

end Traced

namespace Dealer

/-- The computations run in step from any streams of random bytes. -/
def InStep (R : α → β → Prop) (d : Dealer ε α) (e : Dealer ε β) : Prop :=
  ∀ source other, Traced.InStep R (d source).1 (e other).1

/-- The computation reports nothing. -/
def Silent (d : Dealer ε α) : Prop := ∀ source, (d source).1.events = []

theorem fst_bind (d : Dealer ε α) (f : α → Dealer ε β) (source : Entropy) :
    ((d >>= f) source).1 = (d source).1 >>= fun a => (f a (d source).2).1 := by
  rw [bind_eq, Traced.bind_eq, andThen, Traced.andThen]
  rcases d source with ⟨⟨events, fault | a⟩, rest⟩
  · rfl
  · rfl

theorem InStep.bind {R : α → β → Prop} {S : γ → δ → Prop} {d : Dealer ε α} {e : Dealer ε β}
    {f : α → Dealer ε γ} {g : β → Dealer ε δ} (h : InStep R d e)
    (hnext : ∀ x y, R x y → InStep S (f x) (g y)) : InStep S (d >>= f) (e >>= g) := by
  intro source other
  rw [fst_bind, fst_bind]
  exact (h source other).bind fun x y hxy => hnext x y hxy _ _

theorem InStep.ofTraced {R : α → β → Prop} {t : Traced ε α} {u : Traced ε β}
    (h : Traced.InStep R t u) : InStep R (ofTraced t) (ofTraced u) :=
  fun _ _ => h

/-- The computations begin with the same step, which draws nothing. -/
theorem InStep.bind_same {S : γ → δ → Prop} (t : Traced ε α) {f : α → Dealer ε γ}
    {g : α → Dealer ε δ} (hnext : ∀ x, InStep S (f x) (g x)) :
    InStep S (Dealer.ofTraced t >>= f) (Dealer.ofTraced t >>= g) := by
  apply (InStep.ofTraced (.refl t)).bind
  rintro x _ rfl
  exact hnext x

theorem Silent.bind {d : Dealer ε α} {f : α → Dealer ε β} (hd : d.Silent)
    (hf : ∀ a, (f a).Silent) : (d >>= f).Silent := by
  intro source
  have hevents := hd source
  rw [fst_bind]
  rcases hdone : (d source).1 with ⟨events, fault | a⟩
  · rw [hdone] at hevents
    exact hevents
  · rw [hdone] at hevents
    show events ++ (f a (d source).2).1.events = []
    rw [show events = [] from hevents, hf a]
    rfl

theorem Silent.inStep {d : Dealer ε α} {e : Dealer ε β} (hd : d.Silent) (he : e.Silent) :
    InStep (fun _ _ => True) d e :=
  fun source other => .of_silent (hd source) (he other) fun _ _ _ _ => trivial

theorem silent_drawBlocks (n count : Nat) :
    (drawBlocks n count : Dealer ε (List (List UInt8))).Silent := by
  induction count with
  | zero => exact fun _ => rfl
  | succ count ih => exact .bind (fun _ => rfl) fun _ => .bind ih fun _ _ => rfl

end Dealer

/-! ### Splitting -/

theorem Sharing.silent_split (threshold count : Nat) (secret : List UInt8) :
    (split threshold count secret).Silent := by
  unfold split
  split_ifs
  · exact fun _ => rfl
  · exact fun _ => rfl
  · exact fun _ => rfl
  · exact fun _ => rfl
  · exact .bind (Dealer.silent_drawBlocks _ _) fun _ => .bind (fun _ => rfl) fun _ _ => rfl

/-- Sharing an encrypted secret among the groups of a plan gives points at the same places. -/
theorem Plan.x_of_split (plan : Plan) (secret : EncryptedSecret) {source : Entropy}
    {points : List Point} (h : ((Sharing.split plan.groupThreshold.val plan.groupCount.val
      secret.value) source).1.outcome = .ok points) :
    points.map (·.x) = (List.range plan.groupCount.val).map UInt8.ofNat := by
  obtain ⟨curve, -, hsplit⟩ := Sharing.yields_split source plan.groupThreshold.one_le
    plan.threshold_le_length plan.length_le secret.supported.1
  obtain rfl := Except.ok.inj (h.symm.trans hsplit.outcome)
  rw [Curve.points, List.map_map]
  rfl

theorem EncryptedSecret.parameters_of_ofSecret {p : Parameters} {passphrase secret : List UInt8}
    {encrypted : EncryptedSecret} (h : ofSecret p passphrase secret = .ok encrypted) :
    encrypted.parameters = p := by
  obtain ⟨_, -, h⟩ := exists_of_bind_eq_ok h
  obtain ⟨value, -, h⟩ := exists_of_bind_eq_ok h
  unfold ofValue at h
  split_ifs at h
  cases h
  rfl

namespace Backup

variable {plan : Plan} {p : Parameters}

theorem splitGroup_inStep {point other : Point} (h : point.x = other.x) (group : GroupSpec) :
    Dealer.InStep (fun _ _ => True) (splitGroup plan p point group)
      (splitGroup plan p other group) := by
  have hsplit := (Sharing.silent_split group.threshold.val group.count.val point.value).inStep
    (Sharing.silent_split group.threshold.val group.count.val other.value)
  unfold splitGroup
  rw [h]
  apply Dealer.InStep.bind_same
  intro _
  apply hsplit.bind
  intro points others _
  apply Dealer.InStep.bind_same
  intro groupIndex
  exact .ofTraced (.lift _ _)

theorem splitGroups_inStep {points others : List Point}
    (h : List.Forall₂ (fun point other => point.x = other.x) points others)
    (groups : List GroupSpec) :
    Dealer.InStep (fun a b => a.length = b.length) (splitGroups plan p points groups)
      (splitGroups plan p others groups) := by
  induction h generalizing groups with
  | nil => exact .ofTraced (.pure rfl)
  | cons hx _ ih =>
    rcases groups with _ | ⟨group, groups⟩
    · exact .ofTraced (.pure rfl)
    · rw [splitGroups, splitGroups]
      apply (splitGroup_inStep hx group).bind
      intro _ _ _
      apply (ih groups).bind
      intro a b hlength
      exact .ofTraced (.pure (by rw [List.length_cons, List.length_cons, hlength]))

theorem splitEncrypted_inStep (plan : Plan) {secret other : EncryptedSecret}
    (h : secret.parameters = other.parameters) :
    Dealer.InStep (fun _ _ => True) (splitEncrypted plan secret) (splitEncrypted plan other) := by
  have hsplit : Dealer.InStep (List.Forall₂ fun point other => point.x = other.x)
      (Sharing.split plan.groupThreshold.val plan.groupCount.val secret.value)
      (Sharing.split plan.groupThreshold.val plan.groupCount.val other.value) := by
    intro source source'
    apply Traced.InStep.of_silent (Sharing.silent_split _ _ _ source)
      (Sharing.silent_split _ _ _ source')
    intro points others hpoints hothers
    rw [← List.forall₂_map_right_iff, ← List.forall₂_map_left_iff, List.forall₂_eq_eq_eq,
      plan.x_of_split secret hpoints, plan.x_of_split other hothers]
  unfold splitEncrypted
  rw [h]
  apply Dealer.InStep.bind_same
  intro _
  apply hsplit.bind
  intro points others hx
  apply (splitGroups_inStep hx plan.groups).bind
  intro a b hlength
  rw [hlength]
  apply Dealer.InStep.bind_same
  intro _
  exact .ofTraced (.pure trivial)

theorem encrypt_inStep (p : Parameters) (passphrase secret passphrase' secret' : List UInt8) :
    Dealer.InStep (fun a b : EncryptedSecret => a.parameters = b.parameters)
      (Dealer.ofExcept (EncryptedSecret.ofSecret p passphrase secret))
      (Dealer.ofExcept (EncryptedSecret.ofSecret p passphrase' secret')) := by
  apply Dealer.InStep.ofTraced
  apply Traced.InStep.of_silent rfl rfl
  intro a b ha hb
  rw [EncryptedSecret.parameters_of_ofSecret ha, EncryptedSecret.parameters_of_ofSecret hb]

/-- From one stream of random bytes. The runs draw the same identifier, and from there on each may
draw bytes of its own. -/
theorem splitSecret_inStep (plan : Plan) (source : Entropy)
    (passphrase secret passphrase' secret' : List UInt8) :
    Traced.InStep (fun _ _ => True) (splitSecret plan passphrase secret source).1
      (splitSecret plan passphrase' secret' source).1 := by
  unfold splitSecret
  rw [Dealer.fst_bind, Dealer.fst_bind]
  apply Traced.InStep.bind_same
  intro identifier
  refine Dealer.InStep.bind_same _ (fun _ => ?_) _ _
  apply (encrypt_inStep _ passphrase secret passphrase' secret').bind
  intro a b
  exact splitEncrypted_inStep plan

end Backup

/-! ### Shares without their values -/

namespace Share

variable {a b : Share}

/-- The share with zeros for its value. -/
def blank (share : Share) : Share where
  metadata := share.metadata
  value := List.replicate share.value.length 0
  le_length := by rw [List.length_replicate]; exact share.le_length
  even_length := by rw [List.length_replicate]; exact share.even_length

theorem blank_eq_iff : a.blank = b.blank ↔
    a.metadata = b.metadata ∧ a.value.length = b.value.length := by
  rcases a with ⟨_, value, _, _⟩
  rcases b with ⟨_, value', _, _⟩
  simp only [blank, mk.injEq]
  constructor
  · rintro ⟨hmetadata, hvalue⟩
    exact ⟨hmetadata, by simpa using congrArg List.length hvalue⟩
  · rintro ⟨hmetadata, hlength⟩
    exact ⟨hmetadata, by rw [hlength]⟩

theorem mismatch?_blank (a b : Share) : a.blank.mismatch? b.blank = a.mismatch? b := by
  simp only [mismatch?, blank, List.length_replicate]

end Share

namespace Backup

open Share

variable {shares others : List Share}

theorem checkSameBackup_blank (first : Share) (shares : List Share) :
    checkSameBackup first.blank (shares.map blank) = checkSameBackup first shares := by
  induction shares with
  | nil => rfl
  | cons share shares ih =>
    rw [List.map_cons, checkSameBackup, checkSameBackup, mismatch?_blank, ih]

theorem checkMember_blank (earlier : List Share) (share : Share) :
    checkMember (earlier.map blank) share.blank = checkMember earlier share := by
  simp only [checkMember, List.filter_map, List.any_map, List.head?_map, Option.any_map]
  rfl

theorem checkMembers_blank (earlier shares : List Share) :
    checkMembers (earlier.map blank) (shares.map blank) = checkMembers earlier shares := by
  induction shares generalizing earlier with
  | nil => rfl
  | cons share shares ih =>
    have hearlier : earlier.map blank ++ [share.blank] = (earlier ++ [share]).map blank := by
      rw [List.map_append, List.map_singleton]
    rw [List.map_cons, checkMembers, checkMembers, checkMember_blank, hearlier, ih]

/-! ### Groups without values -/

def Group.blank (group : Group) : Group := ⟨group.index, group.members.map Share.blank⟩

theorem Group.threshold_blank (group : Group) : group.blank.threshold = group.threshold := by
  rcases group with ⟨index, _ | ⟨member, members⟩⟩
  · rfl
  · rfl

theorem Group.isComplete_blank (group : Group) : group.blank.isComplete = group.isComplete := by
  rw [isComplete, isComplete, threshold_blank, blank, List.length_map]

theorem groupAt_blank (shares : List Share) (index : Nat) :
    groupAt (shares.map blank) index = (groupAt shares index).blank := by
  rw [groupAt, List.filter_map]
  rfl

theorem groupsOf_blank (shares : List Share) :
    groupsOf (shares.map blank) = (groupsOf shares).map Group.blank := by
  have hrepresented : represented (shares.map blank) = represented shares := by
    rw [represented, represented, List.map_map]
    rfl
  rw [groupsOf_eq_map, groupsOf_eq_map, hrepresented, List.map_map]
  exact List.map_congr_left fun index _ => groupAt_blank shares index

theorem incompleteFault_blank (groups : List Group) (needed got : Nat) :
    incompleteFault (groups.map Group.blank) needed got = incompleteFault groups needed got := by
  unfold incompleteFault
  simp only [List.find?_map, Function.comp_def, Group.isComplete_blank]
  rcases hfind : groups.find? (!·.isComplete) with _ | group
  · rw [hfind]
    rfl
  · rw [hfind]
    simp only [Option.map_some, Group.threshold_blank]
    rw [Group.blank, List.length_map]

/-! ### Combining -/

theorem recover_inStep {a b : Group} (h : a.blank = b.blank) :
    Traced.InStep (fun _ _ => True) a.recover b.recover := by
  have hindex : a.index = b.index :=
    show a.blank.index = b.blank.index from congrArg Group.index h
  have hlength : a.members.length = b.members.length := by
    simpa [Group.blank] using congrArg (·.members.length) h
  unfold Group.recover
  apply (Traced.InStep.lift _ _).bind
  intro _ _ _
  rw [hindex, hlength]
  apply Traced.InStep.bind_same
  intro _
  exact .pure trivial

theorem recoverGroups_inStep {groups groups' : List Group}
    (h : groups.map Group.blank = groups'.map Group.blank) (needed : Nat) :
    Traced.InStep (fun _ _ => True) (recoverGroups needed groups)
      (recoverGroups needed groups') := by
  have hfilter : ∀ list : List Group, (list.filter Group.isComplete).map Group.blank =
      (list.map Group.blank).filter Group.isComplete := by
    intro list
    rw [List.filter_map]
    congr 2
    funext group
    exact group.isComplete_blank.symm
  have hcomplete : List.Forall₂ (fun a b : Group => a.blank = b.blank)
      (groups.filter Group.isComplete) (groups'.filter Group.isComplete) := by
    rw [← List.forall₂_map_right_iff, ← List.forall₂_map_left_iff, List.forall₂_eq_eq_eq,
      hfilter, hfilter, h]
  unfold recoverGroups
  apply (Traced.InStep.mapM hcomplete fun _ _ => recover_inStep).bind
  intro points points' hpoints
  rw [hpoints.length_eq, ← incompleteFault_blank groups, h, incompleteFault_blank]
  split_ifs
  · apply Traced.InStep.bind_same
    intro _
    exact .fail _ _
  · exact .pure trivial

theorem combine_inStep (h : shares.map blank = others.map blank) :
    Traced.InStep (fun _ _ => True) (combine shares) (combine others) := by
  have hgroups : (groupsOf shares).map Group.blank = (groupsOf others).map Group.blank := by
    rw [← groupsOf_blank, h, groupsOf_blank]
  have hcount : (groupsOf shares).length = (groupsOf others).length := by
    simpa using congrArg List.length hgroups
  have hlength : shares.length = others.length := by simpa using congrArg List.length h
  have hmembers : checkMembers [] shares = checkMembers [] others := by
    rw [← checkMembers_blank, h, checkMembers_blank]
  rcases shares with _ | ⟨first, rest⟩
  · rcases others with _ | ⟨first', rest'⟩
    · exact .fail _ _
    · cases hlength
  · rcases others with _ | ⟨first', rest'⟩
    · cases hlength
    obtain ⟨hfirst, hrest⟩ := List.cons.inj h
    have hsame : checkSameBackup first rest = checkSameBackup first' rest' := by
      rw [← checkSameBackup_blank, hfirst, hrest, checkSameBackup_blank]
    have hmetadata : first.metadata = first'.metadata := (blank_eq_iff.mp hfirst).1
    unfold combine
    simp only
    rw [hlength, hmetadata, hsame, hmembers, hcount]
    apply Traced.InStep.bind_same
    intro _
    apply Traced.InStep.bind_same
    intro _
    apply Traced.InStep.bind_same
    intro _
    split_ifs
    · apply Traced.InStep.bind_same
      intro _
      exact .fail _ _
    · apply (recoverGroups_inStep hgroups _).bind
      intro points points' _
      apply (Traced.InStep.lift _ _).bind
      intro value value' _
      apply Traced.InStep.bind_same
      intro _
      exact .lift _ _

/-- **Reports carry no secrets.** What splitting reports does not depend on the secret and on the
passphrase, for one stream of random bytes. What combining reports does not depend on the values of
the shares, but for their lengths. In both cases a run that fails may report less. -/
theorem reports_alike :
    (∀ (plan : Plan) (source : Entropy) (passphrase secret passphrase' secret' : List UInt8),
      Traced.Alike (splitSecret plan passphrase secret source).1
        (splitSecret plan passphrase' secret' source).1) ∧
    ∀ shares others : List Share,
      List.Forall₂ (fun a b => a.metadata = b.metadata ∧ a.value.length = b.value.length)
        shares others →
      Traced.Alike (combine shares) (combine others) := by
  constructor
  · intro plan source passphrase secret passphrase' secret'
    exact (splitSecret_inStep plan source passphrase secret passphrase' secret').alike
  · intro shares others h
    apply Traced.InStep.alike
    apply combine_inStep
    rw [← List.forall₂_eq_eq_eq, List.forall₂_map_left_iff, List.forall₂_map_right_iff]
    exact h.imp fun _ _ => blank_eq_iff.mpr

/-- Two copies of a group, and the same two with another value in the second one. -/
theorem reports_alike_strayCopy :
    let a := strayCopy ⟨3, by decide⟩ ⟨5, by decide⟩
    let b := strayCopy ⟨3, by decide⟩ ⟨1, by decide⟩
    let changed : Share :=
      ⟨b.metadata, List.replicate 16 0x5b, by decide, by decide⟩
    List.Forall₂ (fun a b => a.metadata = b.metadata ∧ a.value.length = b.value.length)
        [a, b] [a, changed] ∧
      (combine [a, b]).events = [.combining 2 7, .groupRecovered 3 2, .secretRecovered 7] ∧
      (combine [a, changed]).outcome = .error (.set .redundantShare) ∧
      ((combine [a, b]).events <+: (combine [a, changed]).events ∨
        (combine [a, changed]).events <+: (combine [a, b]).events) := by
  refine ⟨.cons ⟨rfl, rfl⟩ (.cons ⟨rfl, rfl⟩ .nil), rfl, rfl, ?_⟩
  apply (reports_alike.2 _ _ _).comparable
  exact .cons ⟨rfl, rfl⟩ (.cons ⟨rfl, rfl⟩ .nil)

end Backup

end ShamirBackup
