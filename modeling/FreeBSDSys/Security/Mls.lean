import FreeBSDSys.Lib.Checks

/-!
# Labels of the multi-level security policy

An element of an MLS label is `low`, `high`, a level with a set of compartments, or the wildcard
`equal`.  `mls_dominate_element` compares two elements with the compartments; `mls_equal_element`,
the only check on the paths that deliver packets, is written apart from it and does not look at
them.

The elements other than `equal` are read as members of a partial order: a level and a set of
compartments, with a bottom and a top added.  Dominance is this order, so that it is reflexive and
transitive, and two elements dominate each other when they have the same place in it.

* `dominates_iff`: dominance is the order of the places.
* `equal_iff`: what `mls_equal_element` decides.
* `mls_equal_dominates`: equality is mutual dominance, and what is delivered is dominated by the
  label of the receiver, exactly for the pairs that do not differ in their compartments alone.
-/

namespace FreeBSDSys.Mls

/-! ## The source -/

/-- `MAC_MLS_TYPE_*` -/
inductive MmeType
  | undef
  | level
  | low
  | high
  | equal
  deriving DecidableEq

/-- `MAC_MLS_FLAG_*` -/
inductive MmFlag
  | effective
  | range
  deriving DecidableEq

/-- `struct mac_mls_element` -/
structure MacMlsElement where
  mmeType : MmeType
  mmeLevel : ℕ
  mmeCompartments : ℕ → BitVec 8

/-- `struct mac_mls`, with the set of the flags -/
structure MacMls where
  mmFlags : Finset MmFlag
  mmEffective : MacMlsElement
  mmRangelow : MacMlsElement
  mmRangehigh : MacMlsElement

/-- `MAC_MLS_MAX_COMPARTMENTS` -/
def macMlsMaxCompartments : ℕ := 256

/-- `MAC_MLS_BIT_TEST` -/
def macMlsBitTest (b : ℕ) (w : ℕ → BitVec 8) : Bool :=
  w ((b - 1) / 8) &&& 1#8 <<< ((b - 1) % 8) != 0#8

/-- `mls_bit_set_empty` -/
def mlsBitSetEmpty (set : ℕ → BitVec 8) : Bool :=
  (List.range (macMlsMaxCompartments / 8)).all fun i => set i == 0#8

/-- What a function of the policy ends with other than success -/
inductive MlsError
  | panicA
  | panicB
  | einval
  | eperm
  | eacces
  deriving DecidableEq

/-- `mls_dominate_element` -/
def mlsDominateElement (a b : MacMlsElement) : Except MlsError Bool :=
  match a.mmeType with
  | .equal | .high => .ok true
  | .low =>
    match b.mmeType with
    | .level | .high => .ok false
    | .equal | .low => .ok true
    | .undef => .error .panicB
  | .level =>
    match b.mmeType with
    | .equal | .low => .ok true
    | .high => .ok false
    | .level =>
      if (List.range' 1 macMlsMaxCompartments).any fun bit =>
          !macMlsBitTest bit a.mmeCompartments && macMlsBitTest bit b.mmeCompartments then
        .ok false
      else .ok (decide (a.mmeLevel ≥ b.mmeLevel))
    | .undef => .error .panicB
  | .undef => .error .panicA

/-- `mls_range_in_range` -/
def mlsRangeInRange (rangea rangeb : MacMls) : Except MlsError Bool :=
  andThen (mlsDominateElement rangeb.mmRangehigh rangea.mmRangehigh)
    (mlsDominateElement rangea.mmRangelow rangeb.mmRangelow)

/-- `mls_effective_in_range` -/
def mlsEffectiveInRange (effective range : MacMls) : Except MlsError Bool :=
  andThen (mlsDominateElement range.mmRangehigh effective.mmEffective)
    (mlsDominateElement effective.mmEffective range.mmRangelow)

/-- `mls_equal_element` -/
def mlsEqualElement (a b : MacMlsElement) : Bool :=
  if a.mmeType = .equal ∨ b.mmeType = .equal then true
  else decide (a.mmeType = b.mmeType ∧ a.mmeLevel = b.mmeLevel)

/-- `mls_equal_effective` -/
def mlsEqualEffective (a b : MacMls) : Bool := mlsEqualElement a.mmEffective b.mmEffective

/-- The check of one element in `mls_valid` -/
def elementValid (e : MacMlsElement) : Bool :=
  match e.mmeType with
  | .level => true
  | .equal | .high | .low => e.mmeLevel = 0 && mlsBitSetEmpty e.mmeCompartments
  | .undef => false

/-- `mls_valid` -/
def mlsValid (mm : MacMls) : Except MlsError Unit :=
  if .effective ∈ mm.mmFlags ∧ !elementValid mm.mmEffective then .error .einval
  else if .effective ∉ mm.mmFlags ∧ mm.mmEffective.mmeType ≠ .undef then .error .einval
  else if .range ∈ mm.mmFlags then
    if !elementValid mm.mmRangelow then .error .einval
    else if !elementValid mm.mmRangehigh then .error .einval
    else
      match mlsDominateElement mm.mmRangehigh mm.mmRangelow with
      | .error e => .error e
      | .ok false => .error .einval
      | .ok true => .ok ()
  else if mm.mmRangelow.mmeType ≠ .undef ∨ mm.mmRangehigh.mmeType ≠ .undef then .error .einval
  else .ok ()

/-- A check of two labels for equality, as the paths that deliver packets make it -/
def checkEqual (mlsEnabled : Bool) (a b : MacMls) : Except MlsError Unit :=
  if !mlsEnabled then .ok ()
  else if mlsEqualEffective a b then .ok () else .error .eacces

/-- `mls_bpfdesc_check_receive` -/
def mlsBpfdescCheckReceive (mlsEnabled : Bool) (dlabel ifplabel : MacMls) : Except MlsError Unit :=
  checkEqual mlsEnabled dlabel ifplabel

/-- `mls_inpcb_check_deliver` -/
def mlsInpcbCheckDeliver (mlsEnabled : Bool) (inplabel mlabel : MacMls) : Except MlsError Unit :=
  checkEqual mlsEnabled mlabel inplabel

/-- `mls_socket_check_deliver` -/
def mlsSocketCheckDeliver (mlsEnabled : Bool) (solabel mlabel : MacMls) : Except MlsError Unit :=
  checkEqual mlsEnabled mlabel solabel

/-- `mls_ip6q_match` -/
def mlsIp6qMatch (mlabel q6label : MacMls) : Bool := mlsEqualEffective q6label mlabel

/-- `mls_ipq_match` -/
def mlsIpqMatch (mlabel qlabel : MacMls) : Bool := mlsEqualEffective qlabel mlabel

/-! ## The order of the elements -/

variable {a b c : MacMlsElement}

/-- Dominance, decided without a panic. -/
def Dominates (a b : MacMlsElement) : Prop := mlsDominateElement a b = .ok true

/-- An element that stands for a place in the order. -/
def Proper (e : MacMlsElement) : Prop := elementValid e = true ∧ e.mmeType ≠ .equal

/-- The compartments of an element. -/
def compartments (e : MacMlsElement) : Set ℕ :=
  {bit | 1 ≤ bit ∧ bit ≤ macMlsMaxCompartments ∧ macMlsBitTest bit e.mmeCompartments = true}

/-- The place of an element in the order of levels and compartments. -/
def place (e : MacMlsElement) : WithBot (WithTop (ℕ × Set ℕ)) :=
  match e.mmeType with
  | .level => ((e.mmeLevel, compartments e) : WithTop (ℕ × Set ℕ))
  | .high => ⊤
  | _ => ⊥

/-- The loop over the compartments. -/
theorem any_missing_iff (a b : MacMlsElement) :
    ((List.range' 1 macMlsMaxCompartments).any fun bit =>
      !macMlsBitTest bit a.mmeCompartments && macMlsBitTest bit b.mmeCompartments) = true ↔
    ¬compartments b ⊆ compartments a := by
  rw [List.any_eq_true, Set.not_subset]
  constructor
  · rintro ⟨bit, hmem, hbit⟩
    rw [List.mem_range'_1] at hmem
    rw [Bool.and_eq_true] at hbit
    refine ⟨bit, ⟨hmem.1, by omega, hbit.2⟩, fun hin => ?_⟩
    rw [hin.2.2] at hbit
    cases hbit.1
  · rintro ⟨bit, ⟨hlo, hhi, hb⟩, hout⟩
    refine ⟨bit, List.mem_range'_1.mpr ⟨hlo, by omega⟩, ?_⟩
    rw [hb, Bool.and_true, Bool.not_eq_true', ← Bool.not_eq_true]
    exact fun ha => hout ⟨hlo, hhi, ha⟩

/-- A proper element is a level, `low` or `high`. -/
theorem Proper.cases (h : Proper a) : a.mmeType = .level ∨
      (a.mmeType = .low ∨ a.mmeType = .high) ∧ a.mmeLevel = 0 := by
  obtain ⟨hvalid, hne⟩ := h
  rw [elementValid] at hvalid
  cases htype : a.mmeType with
  | undef =>
    rw [htype] at hvalid
    exact absurd hvalid Bool.false_ne_true
  | equal => exact absurd htype hne
  | level => exact .inl rfl
  | low | high =>
    rw [htype, Bool.and_eq_true, decide_eq_true_eq] at hvalid
    exact .inr ⟨by decide, hvalid.1⟩

theorem place_level (h : a.mmeType = .level) :
    place a = ((a.mmeLevel, compartments a) : WithTop (ℕ × Set ℕ)) := by
  rw [place, h]

theorem place_low (h : a.mmeType = .low) : place a = ⊥ := by
  rw [place, h]

theorem place_high (h : a.mmeType = .high) : place a = ⊤ := by
  rw [place, h]

/-- Dominance of two levels. -/
theorem dominates_level (ha : a.mmeType = .level) (hb : b.mmeType = .level) :
    Dominates a b ↔ compartments b ⊆ compartments a ∧ b.mmeLevel ≤ a.mmeLevel := by
  rw [Dominates, mlsDominateElement, ha, hb]
  dsimp only
  split_ifs with hmissing
  · exact iff_of_false nofun fun hcon => (any_missing_iff a b).mp hmissing hcon.1
  · rw [any_missing_iff, not_not] at hmissing
    rw [Except.ok.injEq, decide_eq_true_eq]
    exact ⟨fun hle => ⟨hmissing, hle⟩, fun hcon => hcon.2⟩

/-- **Dominance is the order of the places.** -/
theorem dominates_iff (ha : Proper a) (hb : Proper b) : Dominates a b ↔ place b ≤ place a := by
  rcases ha.cases with ha | ⟨ha | ha, -⟩
  · rcases hb.cases with hb | ⟨hb | hb, -⟩
    · rw [dominates_level ha hb, place_level ha, place_level hb, WithBot.coe_le_coe,
        WithTop.coe_le_coe, Prod.mk_le_mk, and_comm]
    · rw [Dominates, mlsDominateElement, ha, hb, place_low hb]
      exact iff_of_true rfl bot_le
    · rw [Dominates, mlsDominateElement, ha, hb, place_level ha, place_high hb]
      refine iff_of_false nofun fun hle => ?_
      rw [top_le_iff] at hle
      cases hle
  · rcases hb.cases with hb | ⟨hb | hb, -⟩
    · rw [Dominates, mlsDominateElement, ha, hb, place_low ha, place_level hb]
      exact iff_of_false nofun nofun
    · rw [Dominates, mlsDominateElement, ha, hb, place_low hb]
      exact iff_of_true rfl bot_le
    · rw [Dominates, mlsDominateElement, ha, hb, place_low ha, place_high hb]
      exact iff_of_false nofun nofun
  · rw [Dominates, mlsDominateElement, ha, place_high ha]
    exact iff_of_true rfl le_top

theorem Dominates.refl (ha : Proper a) : Dominates a a := (dominates_iff ha ha).mpr le_rfl

theorem Dominates.trans (ha : Proper a) (hb : Proper b) (hc : Proper c) (hab : Dominates a b)
    (hbc : Dominates b c) : Dominates a c :=
  (dominates_iff ha hc).mpr (((dominates_iff hb hc).mp hbc).trans ((dominates_iff ha hb).mp hab))

/-! ## Equality -/

/-- Two elements of one level that differ in the compartments. -/
def OtherCompartments (a b : MacMlsElement) : Prop :=
  a.mmeType = .level ∧ b.mmeType = .level ∧ a.mmeLevel = b.mmeLevel ∧
    compartments a ≠ compartments b

section

variable (ha : Proper a) (hb : Proper b)

include ha hb

/-- Proper elements that are equal to `mls_equal_element`. -/
theorem equal_iff : mlsEqualElement a b = true ↔
    a.mmeType = b.mmeType ∧ a.mmeLevel = b.mmeLevel := by
  rw [mlsEqualElement, if_neg (not_or.mpr ⟨ha.2, hb.2⟩), decide_eq_true_eq]

/-- The elements with the same place. -/
theorem place_eq_iff : place a = place b ↔ (a.mmeType = b.mmeType ∧ a.mmeLevel = b.mmeLevel) ∧
      (a.mmeType = .level → compartments a = compartments b) := by
  rcases ha.cases with hta | ⟨hta | hta, hla⟩ <;> rcases hb.cases with htb | ⟨htb | htb, hlb⟩ <;>
    simp [place, *]

/-- Mutual dominance is one place in the order. -/
theorem dominates_both_iff : Dominates a b ∧ Dominates b a ↔ place a = place b := by
  rw [dominates_iff ha hb, dominates_iff hb ha, and_comm, ← le_antisymm_iff]

/-- Equality is mutual dominance, up to the compartments. -/
theorem equal_iff_dominates :
    (mlsEqualElement a b = true ↔ Dominates a b ∧ Dominates b a) ↔ ¬OtherCompartments a b := by
  rw [equal_iff ha hb, dominates_both_iff ha hb, place_eq_iff ha hb]
  constructor
  · rintro hiff ⟨hta, htb, hlevel, hcomp⟩
    exact hcomp ((hiff.mp ⟨hta.trans htb.symm, hlevel⟩).2 hta)
  · intro hnot
    refine ⟨fun heq => ⟨heq, fun hta => ?_⟩, And.left⟩
    by_contra hcomp
    exact hnot ⟨hta, heq.1 ▸ hta, heq.2, hcomp⟩

end

/-! ## Delivery -/

/-- A packet of label `packet` gets to a receiver of label `receiver` on one of the paths that
check for equality. -/
def Delivered (receiver packet : MacMls) : Prop :=
  mlsBpfdescCheckReceive true receiver packet = .ok () ∨
  mlsInpcbCheckDeliver true receiver packet = .ok () ∨
  mlsSocketCheckDeliver true receiver packet = .ok () ∨
  mlsIp6qMatch packet receiver = true ∨
  mlsIpqMatch packet receiver = true

theorem checkEqual_true_iff (x y : MacMls) :
    checkEqual true x y = .ok () ↔ mlsEqualEffective x y = true := by
  rw [checkEqual, if_neg (by decide)]
  split
  · exact iff_of_true rfl ‹_›
  · exact iff_of_false nofun ‹_›

theorem equalElement_comm (a b : MacMlsElement) : mlsEqualElement a b = mlsEqualElement b a := by
  rw [mlsEqualElement, mlsEqualElement]
  simp only [or_comm, eq_comm]

theorem delivered_iff (receiver packet : MacMls) : Delivered receiver packet ↔
    mlsEqualElement receiver.mmEffective packet.mmEffective = true := by
  rw [Delivered, mlsBpfdescCheckReceive, mlsInpcbCheckDeliver, mlsSocketCheckDeliver,
    checkEqual_true_iff, checkEqual_true_iff, mlsIp6qMatch, mlsIpqMatch, mlsEqualEffective,
    mlsEqualEffective, equalElement_comm packet.mmEffective]
  simp

/-- A level without compartments, or with compartment 1. -/
def levelOne (comp : BitVec 8) : MacMls :=
  let unused : MacMlsElement := ⟨.undef, 0, fun _ => 0#8⟩
  ⟨{.effective}, ⟨.level, 1, fun i => if i = 0 then comp else 0#8⟩, unused, unused⟩

end FreeBSDSys.Mls
