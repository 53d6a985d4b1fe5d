import Lpad.DB.SkipList

/-!
# The levels of the skip list

`Ordered` is the invariant of the skip list: its links are those of lists one above the other,
in the order of the keys. `Insert` keeps it, for any height that can be drawn, and the
searches end where they should.
-/

namespace Lpad.SkipList

variable {K : Type} {cmp : K → K → Ordering} {κ : Type*} [LinearOrder κ] {rank : K → κ}
  {l l' : SkipList K}

/-! ## Links -/

/-- The node is higher than `ℓ`. -/
def OnLevel (l : SkipList K) (ℓ i : Nat) : Prop := ℓ < (l.links (.node i)).length

instance (l : SkipList K) (ℓ : Nat) : DecidablePred (l.OnLevel ℓ) :=
  fun i => inferInstanceAs (Decidable (ℓ < (l.links (.node i)).length))

/-- The rank of a node's key. -/
def nodeRank (rank : K → κ) (l : SkipList K) (i : Nat) : WithBot κ :=
  match l.nodes[i]? with
  | none => ⊥
  | some n => (rank n.key : WithBot κ)

omit [LinearOrder κ] in
theorem nodeRank_of_getElem? {i : Nat} {n : SkipNode K} (h : l.nodes[i]? = some n) :
    l.nodeRank rank i = (rank n.key : WithBot κ) := by
  rw [nodeRank, h]

theorem OnLevel.getElem? {ℓ i : Nat} (h : l.OnLevel ℓ i) :
    ∃ n, l.nodes[i]? = some n ∧ ℓ < n.next.length := by
  unfold OnLevel links at h
  dsimp only at h
  cases hn : l.nodes[i]? with
  | none =>
    rw [hn] at h
    exact absurd h (Nat.not_lt_zero ℓ)
  | some n =>
    rw [hn] at h
    exact ⟨n, rfl, h⟩

/-- What `SetNext` does not change. -/
structure SameShape (l l' : SkipList K) : Prop where
  keys : l'.nodes.map SkipNode.key = l.nodes.map SkipNode.key
  heights : ∀ x, (l'.links x).length = (l.links x).length
  maxHeight : l'.maxHeight = l.maxHeight

theorem SameShape.refl (l : SkipList K) : SameShape l l := ⟨rfl, fun _ => rfl, rfl⟩

theorem SameShape.trans {l'' : SkipList K} (h : SameShape l l') (h' : SameShape l' l'') :
    SameShape l l'' :=
  ⟨h'.keys.trans h.keys, fun x => (h'.heights x).trans (h.heights x),
    h'.maxHeight.trans h.maxHeight⟩

theorem SameShape.onLevel (h : SameShape l l') : l'.OnLevel = l.OnLevel := by
  funext ℓ i
  rw [OnLevel, OnLevel, h.heights]

omit [LinearOrder κ] in
theorem nodeRank_eq_of_keys (hkeys : l'.nodes.map SkipNode.key = l.nodes.map SkipNode.key) :
    l'.nodeRank rank = l.nodeRank rank := by
  funext i
  have hi := congrArg (·[i]?) hkeys
  simp only [List.getElem?_map] at hi
  cases h : l.nodes[i]? with
  | none =>
    rw [h, Option.map_none, Option.map_eq_none_iff] at hi
    rw [nodeRank, nodeRank, h, hi]
  | some n =>
    rw [h, Option.map_some, Option.map_eq_some_iff] at hi
    obtain ⟨n', hn', hkey⟩ := hi
    rw [nodeRank_of_getElem? hn', nodeRank_of_getElem? h, hkey]

/-- `SetNext` replaces one link. -/
theorem setNext_links {x : Place Nat} {level : Nat} (link : Option Nat)
    (hlt : level < (l.links x).length) :
    ∃ l', l.setNext x level link = some l' ∧
      l'.nodes.map SkipNode.key = l.nodes.map SkipNode.key ∧ l'.maxHeight = l.maxHeight ∧
      ∀ y, l'.links y = if y = x then (l.links y).set level link else l.links y := by
  unfold setNext
  rw [if_pos hlt]
  cases x with
  | head =>
    refine ⟨_, rfl, rfl, rfl, ?_⟩
    intro y
    cases y with
    | head => rw [if_pos rfl]; rfl
    | node j => rw [if_neg nofun]; rfl
  | node i =>
    refine ⟨_, rfl, ?_, rfl, ?_⟩
    · apply List.ext_getElem?
      intro j
      simp only [List.getElem?_map, List.getElem?_modify]
      cases l.nodes[j]? with
      | none => rfl
      | some n => by_cases heq : i = j <;> simp [heq]
    · intro y
      cases y with
      | head => rw [if_neg nofun]; rfl
      | node j =>
        unfold links
        dsimp only
        rw [List.getElem?_modify]
        cases l.nodes[j]? with
        | none => simp
        | some n => by_cases heq : i = j <;> simp [heq, eq_comm]

theorem setNext_spec {x : Place Nat} {level : Nat} {old : Option Nat} (link : Option Nat)
    (h : l.next x level = some old) :
    ∃ l', l.setNext x level link = some l' ∧ SameShape l l' ∧
      ∀ y ℓ, l'.next y ℓ = if y = x ∧ ℓ = level then some link else l.next y ℓ := by
  have hlt : level < (l.links x).length := (List.getElem?_eq_some_iff.mp h).1
  obtain ⟨l', hset, hkeys, hmax, hlinks⟩ := setNext_links link hlt
  refine ⟨l', hset, ⟨hkeys, ?_, hmax⟩, ?_⟩
  · intro y
    rw [hlinks]
    split
    · exact List.length_set
    · rfl
  · intro y ℓ
    rw [next, hlinks]
    by_cases heq : y = x
    · subst heq
      rw [if_pos rfl, List.getElem?_set]
      by_cases hlevel : level = ℓ
      · subst hlevel
        rw [if_pos rfl, if_pos hlt, if_pos ⟨rfl, rfl⟩]
      · rw [if_neg hlevel, if_neg fun h => hlevel h.2.symm]
        rfl
    · rw [if_neg heq, if_neg fun h => heq h.1]
      rfl

/-! ## Insertion -/

/-- One level of the new node. -/
theorem linkLevel_spec {prev : Nat → Option (Place Nat)} {x i : Nat} {p : Place Nat}
    {n old : Option Nat} (hprev : prev i = some p) (hpx : p ≠ .node x) (hp : l.next p i = some n)
    (hx : l.next (.node x) i = some old) :
    ∃ l', l.linkLevel prev x i = some l' ∧ SameShape l l' ∧ l'.next (.node x) i = some n ∧
      l'.next p i = some (some x) ∧
      ∀ y ℓ, (ℓ = i → y ≠ p ∧ y ≠ .node x) → l'.next y ℓ = l.next y ℓ := by
  obtain ⟨l₁, hset, hshape, hnext⟩ := setNext_spec n hx
  have hp' : l₁.next p i = some n := by
    rw [hnext, if_neg fun h => hpx h.1, hp]
  obtain ⟨l₂, hset', hshape', hnext'⟩ := setNext_spec (some x) hp'
  refine ⟨l₂, ?_, hshape.trans hshape', ?_, ?_, ?_⟩
  · unfold linkLevel
    simp only [hprev, hp, hset, hset']
  · rw [hnext', if_neg fun h => hpx h.1.symm, hnext, if_pos ⟨rfl, rfl⟩]
  · rw [hnext', if_pos ⟨rfl, rfl⟩]
  · intro y ℓ hne
    rw [hnext', if_neg fun h => (hne h.2).1 h.1, hnext, if_neg fun h => (hne h.2).2 h.1]

/-- **The loop of `Insert`** puts the node in behind `prev` on every level from `i` on. -/
theorem linkLevels_spec {prev : Nat → Option (Place Nat)} {place : Nat → Place Nat} {x : Nat}
    (rounds i : Nat) (hprev : ∀ ℓ, i ≤ ℓ → ℓ < i + rounds → prev ℓ = some (place ℓ))
    (hne : ∀ ℓ, place ℓ ≠ .node x)
    (hplace : ∀ ℓ, i ≤ ℓ → ℓ < i + rounds → ∃ n, l.next (place ℓ) ℓ = some n)
    (hx : ∀ ℓ, i ≤ ℓ → ℓ < i + rounds → ∃ n, l.next (.node x) ℓ = some n) :
    ∃ l', linkLevels prev x rounds i l = some l' ∧ SameShape l l' ∧
      (∀ ℓ, i ≤ ℓ → ℓ < i + rounds → l'.next (.node x) ℓ = l.next (place ℓ) ℓ) ∧
      (∀ ℓ, i ≤ ℓ → ℓ < i + rounds → l'.next (place ℓ) ℓ = some (some x)) ∧
      ∀ y ℓ, (i ≤ ℓ → ℓ < i + rounds → y ≠ place ℓ ∧ y ≠ .node x) → l'.next y ℓ = l.next y ℓ := by
  induction rounds generalizing l i with
  | zero =>
    refine ⟨l, rfl, SameShape.refl l, ?_, ?_, fun _ _ _ => rfl⟩
    · intro ℓ h₁ h₂
      omega
    · intro ℓ h₁ h₂
      omega
  | succ rounds ih =>
    obtain ⟨n, hn⟩ := hplace i le_rfl (by omega)
    obtain ⟨old, hold⟩ := hx i le_rfl (by omega)
    obtain ⟨l₁, hlink, hshape, hnew, hbefore, hother⟩ :=
      linkLevel_spec (hprev i le_rfl (by omega)) (hne i) hn hold
    have hlater : ∀ y ℓ, i + 1 ≤ ℓ → l₁.next y ℓ = l.next y ℓ := fun y ℓ hℓ =>
      hother y ℓ fun heq => absurd heq (by omega)
    obtain ⟨l₂, hrun, hshape', hnew', hbefore', hother'⟩ := ih (l := l₁) (i + 1)
      (fun ℓ h₁ h₂ => hprev ℓ (by omega) (by omega))
      (fun ℓ h₁ h₂ => by
        rw [hlater _ ℓ h₁]
        exact hplace ℓ (by omega) (by omega))
      (fun ℓ h₁ h₂ => by
        rw [hlater _ ℓ h₁]
        exact hx ℓ (by omega) (by omega))
    have hfirst : ∀ y, l₂.next y i = l₁.next y i := fun y =>
      hother' y i fun h => absurd h (by omega)
    refine ⟨l₂, ?_, hshape.trans hshape', ?_, ?_, ?_⟩
    · unfold linkLevels
      rw [hlink]
      exact hrun
    · intro ℓ h₁ h₂
      rcases h₁.eq_or_lt with rfl | hlt
      · rw [hfirst, hnew, hn]
      · rw [hnew' ℓ hlt (by omega), hlater _ ℓ hlt]
    · intro ℓ h₁ h₂
      rcases h₁.eq_or_lt with rfl | hlt
      · rw [hfirst, hbefore]
      · exact hbefore' ℓ hlt (by omega)
    · intro y ℓ hyℓ
      rw [hother' y ℓ fun h₁ h₂ => hyℓ (by omega) (by omega)]
      apply hother
      rintro rfl
      exact hyℓ le_rfl (by omega)

/-! ## The invariant -/

structure Ordered (rank : K → κ) (l : SkipList K) : Prop where
  linked : Skip.Linked kMaxHeight l.OnLevel (l.nodeRank rank) l.next
  bottom : ∀ i < l.nodes.length, l.OnLevel 0 i
  below_max : ∀ ℓ i, l.OnLevel ℓ i → ℓ < l.maxHeight
  max_pos : 0 < l.maxHeight
  max_le : l.maxHeight ≤ kMaxHeight

theorem ordered_new (rank : K → κ) : Ordered rank (new : SkipList K) where
  linked := by
    have hnone : ∀ ℓ i, ¬ (new : SkipList K).OnLevel ℓ i := fun ℓ i h => Nat.not_lt_zero ℓ h
    constructor
    case lower => exact fun ℓ i h => absurd h (hnone _ i)
    case bounded => exact fun ℓ i h => absurd h (hnone ℓ i)
    case distinct => exact fun i _ h => absurd h (hnone 0 i)
    case link =>
      intro ℓ x hx
      cases x with
      | head => exact ⟨none, List.getElem?_replicate_of_lt hx, fun i h => hnone ℓ i h.1⟩
      | node i => exact absurd hx (hnone ℓ i)
  bottom := fun i h => absurd h (Nat.not_lt_zero i)
  below_max := fun ℓ _ h => absurd h (Nat.not_lt_zero ℓ)
  max_pos := Nat.one_pos
  max_le := show 1 ≤ kMaxHeight by decide

theorem OnLevel.lt_length {ℓ i : Nat} (h : l.OnLevel ℓ i) : i < l.nodes.length := by
  obtain ⟨n, hn, -⟩ := h.getElem?
  exact (List.getElem?_eq_some_iff.mp hn).1

/-! ## The searches -/

section Search

variable {P : WithBot κ → Prop} {advance : Nat → Bool}

/-- **The loop of a search** that goes on over the nodes of a lower set. -/
theorem descend_spec (h : Ordered rank l) (hP : ∀ a b, a ≤ b → P b → P a)
    (hadvance : ∀ i, l.OnLevel 0 i → (advance i = true ↔ P (l.nodeRank rank i)))
    {fuel level : Nat} {x : Place Nat} (prev : Nat → Option (Place Nat))
    (hx : Skip.On kMaxHeight l.OnLevel level x)
    (hmem : ∀ i, x = .node i → P (l.nodeRank rank i))
    (hfuel : ((Finset.range l.nodes.length).filter (Skip.Behind (l.nodeRank rank) x)).card + level
      < fuel) :
    ∃ x' n prev', l.descend advance fuel x level prev = some (x', n, prev') ∧
      Skip.LastOn kMaxHeight l.OnLevel (l.nodeRank rank) P 0 x' ∧
      Skip.FirstOf (l.nodeRank rank) (fun i => l.OnLevel 0 i ∧ ¬ P (l.nodeRank rank i)) n ∧
      (∀ ℓ ≤ level, ∃ y, prev' ℓ = some y ∧
        Skip.LastOn kMaxHeight l.OnLevel (l.nodeRank rank) P ℓ y) ∧
      ∀ ℓ, level < ℓ → prev' ℓ = prev ℓ := by
  induction fuel generalizing x level prev with
  | zero => exact absurd hfuel (Nat.not_lt_zero _)
  | succ fuel ih =>
    obtain ⟨n, hn, hfirst⟩ := h.linked.link level x hx
    unfold descend
    rw [hn]
    dsimp only
    cases hgo : n.filter advance with
    | some i =>
      obtain ⟨rfl, hi⟩ := Option.filter_eq_some_iff.mp hgo
      obtain ⟨⟨hon, hbehind⟩, -⟩ := hfirst
      have hPi := (hadvance i (h.linked.bottom hon)).mp hi
      have hless := Skip.card_behind_lt (Finset.mem_range.mpr hon.lt_length) hbehind
      exact ih prev hon (fun j hj => by rwa [← Place.node.inj hj]) (by omega)
    | none =>
      have hstop : ∀ i, n = some i → ¬ P (l.nodeRank rank i) := by
        rintro i rfl hPi
        have hi := (hadvance i (h.linked.bottom hfirst.1.1)).mpr hPi
        rw [Option.filter_some, if_pos hi] at hgo
        cases hgo
      have hlast := h.linked.lastOn hP hx hmem hn hstop
      cases level with
      | zero =>
        refine ⟨x, n, _, rfl, hlast, hlast.firstOf_not h.linked hP hn hstop, ?_, ?_⟩
        · intro ℓ hℓ
          obtain rfl := Nat.le_zero.mp hℓ
          exact ⟨x, Function.update_self .., hlast⟩
        · exact fun ℓ hℓ => Function.update_of_ne hℓ.ne' ..
      | succ level =>
        obtain ⟨x', n', prev', hrun, hlast', hfirst', hprev, hrest⟩ :=
          ih (Function.update prev (level + 1) (some x)) (h.linked.on_lower hx) hmem
            (by omega)
        refine ⟨x', n', prev', hrun, hlast', hfirst', ?_, ?_⟩
        · intro ℓ hℓ
          rcases Nat.le_succ_iff.mp hℓ with hle | rfl
          · exact hprev ℓ hle
          · exact ⟨x, (hrest _ (Nat.lt_succ_self level)).trans (Function.update_self ..), hlast⟩
        · intro ℓ hℓ
          rw [hrest ℓ (by omega), Function.update_of_ne hℓ.ne']

theorem search_spec (h : Ordered rank l) (hP : ∀ a b, a ≤ b → P b → P a)
    (hadvance : ∀ i, l.OnLevel 0 i → (advance i = true ↔ P (l.nodeRank rank i))) :
    ∃ x n prev, l.search advance = some (x, n, prev) ∧
      Skip.LastOn kMaxHeight l.OnLevel (l.nodeRank rank) P 0 x ∧
      Skip.FirstOf (l.nodeRank rank) (fun i => l.OnLevel 0 i ∧ ¬ P (l.nodeRank rank i)) n ∧
      ∀ ℓ < l.maxHeight, ∃ y, prev ℓ = some y ∧
        Skip.LastOn kMaxHeight l.OnLevel (l.nodeRank rank) P ℓ y := by
  have hpos := h.max_pos
  have hle := h.max_le
  have hcard := Finset.card_filter_le (Finset.range l.nodes.length)
    (Skip.Behind (l.nodeRank rank) .head)
  rw [Finset.card_range] at hcard
  obtain ⟨x, n, prev, hrun, hlast, hfirst, hprev, -⟩ := descend_spec h hP hadvance
    (x := .head) (fun _ => none) (show l.maxHeight - 1 < kMaxHeight by omega) nofun
    (show _ < l.nodes.length + l.maxHeight by omega)
  exact ⟨x, n, prev, hrun, hlast, hfirst, fun ℓ hℓ => hprev ℓ (by omega)⟩

theorem keyIsAfterNode_iff (hrank : Ranks cmp rank) (key : K) (i : Nat) (hi : l.OnLevel 0 i) :
    l.keyIsAfterNode cmp key i = true ↔ l.nodeRank rank i < (rank key : WithBot κ) := by
  obtain ⟨n, hn, -⟩ := hi.getElem?
  rw [keyIsAfterNode, hn, nodeRank_of_getElem? hn, WithBot.coe_lt_coe, ← hrank.lt_iff]
  exact decide_eq_true_iff

end Search

/-! ## Insertion keeps the invariant -/

/-- The list with the new node allocated, not yet linked. -/
def allocate (l : SkipList K) (key : K) (height maxHeight : Nat) : SkipList K :=
  { l with nodes := l.nodes ++ [⟨key, List.replicate height none⟩], maxHeight }

section Allocate

variable {key : K} {height maxHeight : Nat}

theorem allocate_links_self :
    (l.allocate key height maxHeight).links (.node l.nodes.length) =
      List.replicate height none := by
  simp [allocate, links]

theorem allocate_links {x : Place Nat} (hx : x ≠ .node l.nodes.length) :
    (l.allocate key height maxHeight).links x = l.links x := by
  cases x with
  | head => rfl
  | node i =>
    have hi : i ≠ l.nodes.length := fun heq => hx (congrArg _ heq)
    rcases Nat.lt_or_gt_of_ne hi with hlt | hgt
    · simp [allocate, links, List.getElem?_append_left hlt]
    · have hnone : l.nodes[i]? = none := List.getElem?_eq_none hgt.le
      have hnone' : (l.nodes ++ [⟨key, List.replicate height none⟩])[i]? = none := by
        apply List.getElem?_eq_none
        rw [List.length_append, List.length_singleton]
        exact hgt
      simp [allocate, links, hnone, hnone']

theorem allocate_next {x : Place Nat} (hx : x ≠ .node l.nodes.length) (ℓ : Nat) :
    (l.allocate key height maxHeight).next x ℓ = l.next x ℓ := by
  rw [next, next, allocate_links hx]

theorem allocate_onLevel (ℓ i : Nat) : (l.allocate key height maxHeight).OnLevel ℓ i ↔
    Skip.withNode l.OnLevel l.nodes.length height ℓ i := by
  by_cases hi : i = l.nodes.length
  · subst hi
    have hnot : ¬ l.OnLevel ℓ l.nodes.length := fun h => absurd h.lt_length (lt_irrefl _)
    rw [OnLevel, allocate_links_self, List.length_replicate]
    exact ⟨fun h => Or.inr ⟨rfl, h⟩, fun h => (h.resolve_left hnot).2⟩
  · rw [OnLevel, allocate_links fun h => hi (Place.node.inj h)]
    exact ⟨Or.inl, fun h => h.resolve_right fun h => hi h.1⟩

omit [LinearOrder κ] in
theorem allocate_nodeRank {i : Nat} (hi : l.OnLevel 0 i) :
    (l.allocate key height maxHeight).nodeRank rank i = l.nodeRank rank i := by
  rw [nodeRank, nodeRank, allocate, List.getElem?_append_left hi.lt_length]

omit [LinearOrder κ] in
theorem allocate_nodeRank_self :
    (l.allocate key height maxHeight).nodeRank rank l.nodes.length = (rank key : WithBot κ) := by
  apply nodeRank_of_getElem? (n := ⟨key, List.replicate height none⟩)
  simp [allocate]

end Allocate

/-- The predecessors of `Insert`: those of the search, and the head above them. -/
theorem Ordered.lastOn_place (h : Ordered rank l) {P : WithBot κ → Prop} {height : Nat}
    (hheight : height ≤ kMaxHeight) {prev : Nat → Option (Place Nat)}
    (hprev : ∀ ℓ < l.maxHeight, ∃ y, prev ℓ = some y ∧
      Skip.LastOn kMaxHeight l.OnLevel (l.nodeRank rank) P ℓ y) :
    ∃ place : Nat → Place Nat,
      (∀ ℓ < height, (if l.maxHeight ≤ ℓ ∧ ℓ < height then some .head else prev ℓ) =
        some (place ℓ)) ∧
      (∀ ℓ < height, Skip.LastOn kMaxHeight l.OnLevel (l.nodeRank rank) P ℓ (place ℓ)) ∧
      ∀ ℓ, place ℓ ≠ .node l.nodes.length := by
  have hlevel : ∀ ℓ, ∃ p, (ℓ < height →
      (if l.maxHeight ≤ ℓ ∧ ℓ < height then some .head else prev ℓ) = some p ∧
        Skip.LastOn kMaxHeight l.OnLevel (l.nodeRank rank) P ℓ p) ∧ p ≠ .node l.nodes.length := by
    intro ℓ
    by_cases hmax : ℓ < l.maxHeight
    · obtain ⟨y, hy, hlast⟩ := hprev ℓ hmax
      refine ⟨y, fun _ => ⟨?_, hlast⟩, ?_⟩
      · rw [if_neg fun h => absurd h.1 (not_le.mpr hmax), hy]
      · rintro rfl
        exact absurd (OnLevel.lt_length hlast.on_level) (lt_irrefl _)
    · refine ⟨.head, fun hℓ => ⟨if_pos ⟨not_lt.mp hmax, hℓ⟩, ?_⟩, nofun⟩
      exact ⟨hℓ.trans_le hheight, nofun, fun j hj => absurd (h.below_max ℓ j hj) hmax⟩
  choose place hplace hne using hlevel
  exact ⟨place, fun ℓ hℓ => (hplace ℓ hℓ).1, fun ℓ hℓ => (hplace ℓ hℓ).2, hne⟩

/-- `Insert` keeps the invariant when no node has an equal key. -/
theorem insert_spec (hrank : Ranks cmp rank) (h : Ordered rank l) {key : K} {height : Nat}
    (hpos : 0 < height) (hheight : height ≤ kMaxHeight)
    (hnew : ∀ n ∈ l.nodes, rank n.key ≠ rank key) :
    ∃ l', l.insert cmp key height = some l' ∧ Ordered rank l' ∧
      l'.nodes.map SkipNode.key = l.nodes.map SkipNode.key ++ [key] := by
  obtain ⟨x, n, prev, hsearch, -, hfirst, hprev⟩ := search_spec h
    (P := (· < (rank key : WithBot κ))) (fun _ _ hab hb => lt_of_le_of_lt hab hb)
    (fun i hi => keyIsAfterNode_iff hrank key i hi)
  have hassert : ¬ n.any (l.equalTo cmp key) = true := by
    intro hany
    obtain ⟨i, rfl, hi⟩ := (Option.any_eq_true _ _).mp hany
    obtain ⟨node, hnode, -⟩ := OnLevel.getElem? hfirst.1.1
    rw [equalTo, hnode, decide_eq_true_iff, hrank.eq_iff] at hi
    exact hnew node (List.mem_of_getElem? hnode) hi.symm
  obtain ⟨place, hplace, hlast, hne⟩ := h.lastOn_place hheight hprev
  let m := if height > l.maxHeight then height else l.maxHeight
  have hnode : ∀ ℓ, 0 ≤ ℓ → ℓ < 0 + height → ∃ n,
      (l.allocate key height m).next (.node l.nodes.length) ℓ = some n := by
    intro ℓ _ hℓ
    rw [next, allocate_links_self]
    exact ⟨none, List.getElem?_replicate_of_lt (by omega)⟩
  have hlink : ∀ ℓ, 0 ≤ ℓ → ℓ < 0 + height → ∃ n,
      (l.allocate key height m).next (place ℓ) ℓ = some n := by
    intro ℓ _ hℓ
    rw [allocate_next (hne ℓ)]
    obtain ⟨n, hn, -⟩ := h.linked.link ℓ (place ℓ) (hlast ℓ (by omega)).on_level
    exact ⟨n, hn⟩
  obtain ⟨l', hrun, hshape, hnext, hbefore, hother⟩ := linkLevels_spec height 0
    (fun ℓ _ hℓ => hplace ℓ (by omega)) hne hlink hnode
  have hon : l'.OnLevel = Skip.withNode l.OnLevel l.nodes.length height := by
    funext ℓ i
    rw [hshape.onLevel]
    exact propext (allocate_onLevel ℓ i)
  have hrank' : ∀ i, l.OnLevel 0 i → l'.nodeRank rank i = l.nodeRank rank i := by
    intro i hi
    rw [nodeRank_eq_of_keys hshape.keys, allocate_nodeRank hi]
  have hself : l'.nodeRank rank l.nodes.length = (rank key : WithBot κ) := by
    rw [nodeRank_eq_of_keys hshape.keys, allocate_nodeRank_self]
  have hspliced : Skip.Spliced l.next l'.next l.nodes.length height place := by
    constructor
    case new =>
      intro ℓ hℓ
      rw [hnext ℓ (Nat.zero_le ℓ) (by omega), allocate_next (hne ℓ)]
    case before => exact fun ℓ hℓ => hbefore ℓ (Nat.zero_le ℓ) (by omega)
    case other =>
      intro ℓ x hx hxp
      rw [hother x ℓ fun _ hℓ => ⟨hxp (by omega), hx⟩, allocate_next hx]
  refine ⟨l', ?_, ⟨?_, ?_, ?_, ?_, ?_⟩, ?_⟩
  · unfold insert findGreaterOrEqual
    rw [hsearch]
    dsimp only [Option.map_some]
    rw [if_neg hassert]
    exact hrun
  · rw [hon]
    refine (h.linked.congr hrank').insert (fun ℓ hz => absurd hz.lt_length (lt_irrefl _)) ?_
      hheight ?_ hspliced
    · intro i hi
      obtain ⟨node, hnode, -⟩ := hi.getElem?
      rw [hrank' i hi, hself, nodeRank_of_getElem? hnode, Ne, WithBot.coe_inj]
      exact hnew node (List.mem_of_getElem? hnode)
    · intro ℓ hℓ
      rw [hself]
      exact (hlast ℓ hℓ).congr h.linked hrank'
  · intro i hi
    have hlen := congrArg List.length hshape.keys
    simp only [List.length_map, allocate, List.length_append, List.length_singleton] at hlen
    rw [hon]
    rcases Nat.lt_succ_iff_lt_or_eq.mp (hlen ▸ hi) with hlt | rfl
    · exact Or.inl (h.bottom i hlt)
    · exact Or.inr ⟨rfl, hpos⟩
  · intro ℓ i hi
    rw [hshape.maxHeight]
    show ℓ < m
    rw [hon] at hi
    rcases hi with hi | ⟨-, hlt⟩
    · have hmax := h.below_max ℓ i hi
      simp only [m]
      split <;> omega
    · simp only [m]
      split <;> omega
  · rw [hshape.maxHeight]
    show 0 < m
    have hmax := h.max_pos
    simp only [m]
    split <;> omega
  · rw [hshape.maxHeight]
    show m ≤ kMaxHeight
    have hmax := h.max_le
    simp only [m]
    split <;> omega
  · rw [hshape.keys, allocate, List.map_append]
    rfl

end Lpad.SkipList
