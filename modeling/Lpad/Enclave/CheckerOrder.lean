import Lpad.Enclave.CheckerHistory
import Mathlib.Data.List.Pairwise

/-!
# Real-time order of the merged writes

`check` compares the ops of one run with each other, `try_merge` compares the first op of the run
with the latest merged write. An op of the run that ended before an *older* merged write started
is seen by neither.

Which writes are merged together is decided by the order in which they arrive at `g_mutex`: an
arrival merges the numbers that it makes gap-free, if any. `Escapes` says of an arrival, by the
numbers that arrived before it and the times of these writes, that the numbers it completes hold
an inversion nobody reports.
-/

namespace Lpad

/-- `a` has the smaller number although `b` ended before `a` started. -/
def Inverted (a b : Op) : Prop := a.ts < b.ts ∧ b.end_ < a.start

instance (a b : Op) : Decidable (Inverted a b) := inferInstanceAs (Decidable (_ ∧ _))

/-- The two are inverted one way or the other. -/
def OutOfOrder (x y : Op) : Prop := Inverted x y ∨ Inverted y x

instance (x y : Op) : Decidable (OutOfOrder x y) := inferInstanceAs (Decidable (_ ∨ _))

/-- Every inversion among the merged writes is reported by the section that merges
the later of the two. (A section in which `try_merge` fails merges nothing.) -/
def InversionsReported (merged : List Merged) : Prop :=
  merged.Pairwise fun x y => OutOfOrder x.op y.op → y.reported = true

instance (merged : List Merged) : Decidable (InversionsReported merged) :=
  inferInstanceAs (Decidable (List.Pairwise _ _))

/-! ## Arrivals and cuts -/

/-- **The arrivals that let an inversion through.** Write `p` arrives when the numbers up to `lo`
are complete, and completes those up to `hi`. Of these, `lo + 1` did not end before `lo` started,
and none ended before a smaller one of them started; but one of them ended before some number up
to `lo` started. -/
def Escapes (before : List (Nat × Op)) (p : Nat × Op) : Prop :=
  ∃ lo hi, ReachesTo before lo ∧ ReachesTo (before ++ [p]) hi ∧
    (0 < lo → (writeOf before lo).start ≤ (writeOf (before ++ [p]) (lo + 1)).end_) ∧
    (∀ a b, lo < a → a < b → b ≤ hi →
      (writeOf (before ++ [p]) a).start < (writeOf (before ++ [p]) b).end_) ∧
    ∃ a b, 0 < a ∧ a ≤ lo ∧ lo < b ∧ b ≤ hi ∧
      (writeOf (before ++ [p]) b).end_ < (writeOf before a).start

/-- No arrival lets an inversion through. -/
def NoneEscapes (arrivals : List (Nat × Op)) : Prop :=
  ∀ before p after, arrivals = before ++ p :: after → ¬ Escapes before p

theorem noneEscapes_snoc {arrivals : List (Nat × Op)} {p : Nat × Op} :
    NoneEscapes (arrivals ++ [p]) ↔ NoneEscapes arrivals ∧ ¬ Escapes arrivals p := by
  constructor
  · intro h
    refine ⟨fun before q after hsplit => h before q (after ++ [p]) ?_, h arrivals p [] rfl⟩
    rw [hsplit, List.append_assoc, List.cons_append]
  · rintro ⟨hold, hlast⟩ before q after hsplit
    rcases List.eq_nil_or_concat after with rfl | ⟨after, r, rfl⟩
    · obtain ⟨rfl, hq⟩ := List.append_inj' hsplit rfl
      cases hq
      exact hlast
    · rw [List.concat_eq_append, ← List.cons_append, ← List.append_assoc] at hsplit
      exact hold before q after (List.append_inj' hsplit rfl).1

/-! ## One section -/

/-- The section merges, `check` is silent, and the run it merges is not in order. -/
def Section.LetsThrough (c : Section) : Prop :=
  c.ok = true ∧ check c.acl = false ∧
    ∃ y ∈ c.acl, ∃ x ∈ c.merged.map Merged.op ++ c.acl, OutOfOrder x y

theorem OutOfOrder.symm {x y : Op} (h : OutOfOrder x y) : OutOfOrder y x := Or.symm h

theorem OutOfOrder.ne {x y : Op} (h : OutOfOrder x y) : x ≠ y := by
  rintro rfl
  rcases h with ⟨h, -⟩ | ⟨h, -⟩
  · exact Nat.lt_irrefl _ h
  · exact Nat.lt_irrefl _ h

/-- With a symmetric and irreflexive relation, positions do not matter. -/
theorem pairwise_not_outOfOrder_iff (run : List Op) :
    (run.Pairwise fun x y => ¬ OutOfOrder x y) ↔ ∀ y ∈ run, ∀ x ∈ run, ¬ OutOfOrder x y := by
  constructor
  · intro h y hy x hx hxy
    have : Std.Symm fun x y => ¬ OutOfOrder x y := ⟨fun _ _ hn h => hn h.symm⟩
    exact h.forall_of_forall (fun _ _ h => h.ne rfl) hx hy hxy
  · intro h
    exact List.pairwise_of_forall_mem_list fun x hx y hy => h y hy x hx

/-- One section adds no silent inversion exactly when it lets none through. -/
theorem inversionsReported_append (c : Section) :
    InversionsReported (c.merged ++ c.merges) ↔
      InversionsReported c.merged ∧ ¬ c.LetsThrough := by
  unfold InversionsReported
  rw [List.pairwise_append, Section.LetsThrough, Section.merges]
  cases hok : c.ok with
  | false => simp
  | true =>
    cases hcheck : check c.acl with
    | true =>
      have htrue : ∀ l : List Op, l.Pairwise fun _ _ => True := fun l =>
        List.pairwise_of_forall_mem_list fun _ _ _ _ => trivial
      simp [List.pairwise_map, htrue]
    | false =>
      -- a silent section must merge a run that is in order with everything
      simp only [if_true, List.pairwise_map, List.mem_map, Bool.false_eq_true, imp_false,
        true_and, pairwise_not_outOfOrder_iff, List.mem_append]
      constructor
      · rintro ⟨hold, hrun, hcross⟩
        refine ⟨hold, ?_⟩
        rintro ⟨y, hy, x, ⟨z, hz, rfl⟩ | hx, hxy⟩
        · exact Bool.false_ne_true (hcross z hz ⟨y, false⟩ ⟨y, hy, rfl⟩ hxy)
        · exact hrun y hy x hx hxy
      · rintro ⟨hold, hnone⟩
        refine ⟨hold, fun y hy x hx hxy => hnone ⟨y, hy, x, Or.inr hx, hxy⟩, ?_⟩
        rintro z hz _ ⟨y, hy, rfl⟩ hzy
        exact absurd ⟨y, hy, z.op, Or.inl ⟨z, hz, rfl⟩, hzy⟩ hnone

theorem pairwise_range'_iff {R : Nat → Nat → Prop} (a n : Nat) :
    (List.range' a n).Pairwise R ↔ ∀ i j, a ≤ i → i < j → j < a + n → R i j := by
  induction n generalizing a with
  | zero =>
    refine iff_of_true List.Pairwise.nil fun i j hi hij hj => ?_
    omega
  | succ n ih =>
    rw [List.range'_succ, List.pairwise_cons, ih]
    constructor
    · rintro ⟨hfirst, hrest⟩ i j hi hij hj
      rcases Nat.lt_or_eq_of_le hi with hlt | rfl
      · exact hrest i j hlt hij (by omega)
      · exact hfirst j (List.mem_range'_1.mpr ⟨hij, by omega⟩)
    · intro h
      refine ⟨fun j hj => ?_, fun i j hi hij hj => h i j (by omega) hij (by omega)⟩
      obtain ⟨hle, hlt⟩ := List.mem_range'_1.mp hj
      exact h a j (Nat.le_refl a) hle (by omega)

/-- `check`, by number. -/
theorem Cut.check_iff {s : Sys} {p : Nat × Op} {m j : Nat} (hcut : Cut s p m j) :
    check (truncate (s.enc.filed p.2 p.1) s.enc.history).1 = false ↔
      ∀ a b, m < a → a < b → b ≤ m + j →
        (writeOf (s.posted ++ [p]) a).start < (writeOf (s.posted ++ [p]) b).end_ := by
  rw [check_eq_false_iff, hcut.acl, List.pairwise_map, pairwise_range'_iff]
  refine forall_congr' fun a => forall_congr' fun b => forall_congr' fun _ => forall_congr' fun _ =>
    imp_congr_left ?_
  omega

/-- The section of `enclave_postput`, by the arrival it is run for. -/
theorem Kept.letsThrough_iff {s : Sys} {m j : Nat} (h : Kept s m) {op : Op} {seq time : Nat}
    (hcut : Cut s (seq, op.posted seq time) m j) :
    (s.sectionOf op seq time).LetsThrough ↔ Escapes s.posted (seq, op.posted seq time) := by
  have hts : ∀ {k}, 0 < k → k ≤ m + j → _ := fun h0 hk => hcut.ts_eq h rfl h0 hk
  have hold : ∀ k, 0 < k → k ≤ m → writeOf (s.posted ++ [(seq, op.posted seq time)]) k =
      writeOf s.posted k := fun k h0 hk => writeOf_append (h.reaches.upTo k h0 hk) _
  have hacl : (s.sectionOf op seq time).acl = _ := hcut.acl
  have hall : (s.sectionOf op seq time).merged.map Merged.op ++ (s.sectionOf op seq time).acl = _ :=
    hcut.history h
  have hok : (s.sectionOf op seq time).ok = true ↔ _ := hcut.ok_iff h
  have hcheck : check (s.sectionOf op seq time).acl = false ↔ _ := hcut.check_iff
  unfold Section.LetsThrough
  rw [hok, hcheck, hall, hacl]
  constructor
  · rintro ⟨hmerge, hsilent, y, hy, x, hx, hxy⟩
    obtain ⟨b, hb, rfl⟩ := List.mem_map.mp hy
    obtain ⟨a, ha, rfl⟩ := List.mem_map.mp hx
    obtain ⟨hb1, hb2⟩ := List.mem_range'_1.mp hb
    obtain ⟨ha1, ha2⟩ := List.mem_range'_1.mp ha
    have hbt := hts (k := b) (by omega) (by omega)
    have hat := hts (k := a) (by omega) (by omega)
    refine ⟨m, m + j, h.reaches, hcut.reaches, fun h0 => hmerge h0 (by omega), hsilent, ?_⟩
    -- two ops of the run are in order, or `check` would speak
    rcases hxy with ⟨hlt, hend⟩ | ⟨hlt, hend⟩
    · rw [hbt, hat] at hlt
      rcases Nat.lt_or_ge m a with hma | hma
      · exact absurd (hsilent a b hma hlt (by omega)) (Nat.not_lt.mpr (Nat.le_of_lt hend))
      · refine ⟨a, b, ha1, hma, hb1, by omega, ?_⟩
        rwa [hold a ha1 hma] at hend
    · rw [hbt, hat] at hlt
      exact absurd (hsilent b a hb1 hlt (by omega)) (Nat.not_lt.mpr (Nat.le_of_lt hend))
  · rintro ⟨lo, hi, hlo, hhi, hmerge, hsilent, a, b, ha0, ha, hb, hbhi, hend⟩
    obtain rfl := hlo.unique h.reaches
    obtain rfl := hhi.unique hcut.reaches
    refine ⟨fun h0 _ => hmerge h0, hsilent, _, List.mem_map.mpr ⟨b, ?_, rfl⟩, _,
      List.mem_map.mpr ⟨a, ?_, rfl⟩, Or.inl ⟨?_, ?_⟩⟩
    · exact List.mem_range'_1.mpr ⟨hb, by omega⟩
    · exact List.mem_range'_1.mpr ⟨ha0, by omega⟩
    · rw [hts ha0 (by omega), hts (by omega) hbhi]
      omega
    · rwa [hold a ha0 ha]

/-! ## Runs -/

/-- The invariant: while `g_mutex` is free the history has kept up, and the inversions are
reported just when no arrival has let one through. -/
def OrderKept (s : Sys) : Prop :=
  (s.enc.gMutex = false → ∃ m, Kept s m) ∧
    (InversionsReported s.merged ↔ NoneEscapes s.posted)

theorem OrderKept.frame {s s' : Sys} (h : OrderKept s) (hfree : s'.enc.gMutex = s.enc.gMutex)
    (hhis : s'.enc.history = s.enc.history)
    (hcomp : s'.enc.completedList = s.enc.completedList) (hposted : s'.posted = s.posted)
    (hmerged : s'.merged = s.merged) : OrderKept s' := by
  refine ⟨fun hs => ?_, by rw [hposted, hmerged]; exact h.2⟩
  obtain ⟨m, hm⟩ := h.1 (hfree.symm.trans hs)
  exact ⟨m, hm.frame hhis hcomp hposted hmerged⟩

theorem OrderKept.step {s s' : Sys} {a : Act} (h : OrderKept s) {missing : Nat}
    (hpos : 0 < missing) (hsmall : missing < 2 ^ 32)
    (hmissing : missing ∉ s'.posted.map Prod.fst) (hstep : s.Stepped a s') : OrderKept s' := by
  cases hstep with
  | preputTime => exact h.frame rfl rfl rfl rfl rfl
  | preputId => exact h.frame rfl rfl rfl rfl rfl
  | preputLock => exact h.frame rfl rfl rfl rfl rfl
  | postputTime => exact h.frame rfl rfl rfl rfl rfl
  | dangle => exact h.frame rfl rfl rfl rfl rfl
  | @post t id seq time op timed free found =>
    obtain ⟨m, hm⟩ := h.1 free
    obtain ⟨j, hcut⟩ := hm.cut (seq, op.posted seq time) hpos hsmall hmissing
    constructor
    · intro hfree
      cases hok : (s.sectionOf op seq time).ok with
      | true => exact ⟨m + j, hm.post hcut hok⟩
      | false =>
        have hnone := Option.not_isSome_iff_eq_none.mp fun hmerges =>
          Bool.false_ne_true (hok.symm.trans hmerges)
        have hheld : (s.post t id seq time op).enc.gMutex = true :=
          Checker.postputSection_gMutex_none hnone
        rw [hheld] at hfree
        cases hfree
    · show InversionsReported (s.merged ++ (s.sectionOf op seq time).merges) ↔
        NoneEscapes (s.posted ++ [(seq, op.posted seq time)])
      rw [noneEscapes_snoc, ← h.2, ← hm.letsThrough_iff hcut]
      exact inversionsReported_append (s.sectionOf op seq time)

/-- **Real-time order of the write history.** In every run of any number of clients, whatever
numbers they post as long as one of `1..2^32 - 1` is missing, the inversions among the merged
writes are all reported when the later write is merged if and only if no arrival lets one
through. -/
theorem history_inversions_reported_iff (acts : List Act) (s : Sys)
    (h : runs Sys.step Sys.init acts = some s)
    (hmissing : ∃ k, 0 < k ∧ k < 2 ^ 32 ∧ k ∉ s.posted.map Prod.fst) :
    InversionsReported s.merged ↔
      ∀ before p after, s.posted = before ++ p :: after → ¬ Escapes before p := by
  obtain ⟨k, hpos, hsmall, hk⟩ := hmissing
  have hinv : OrderKept s := by
    refine runs_induction (P := fun _ s => k ∉ s.posted.map Prod.fst → OrderKept s)
      (fun _ => ⟨fun _ => ⟨0, Kept.init⟩, ?_⟩) ?_ acts s h hk
    · refine iff_of_true List.Pairwise.nil ?_
      intro before p after hsplit
      cases before <;> cases hsplit
    · intro _ s a s' _ ih hstep hk'
      obtain ⟨-, hstepped⟩ := Sys.step_stepped hstep
      refine (ih fun hmem => hk' ?_).step hpos hsmall hk' hstepped
      exact List.map_subset _ hstepped.posted_subset hmem
  exact hinv.2

/-- Three writes: `y` starts, `b` starts and ends, then `a` starts and ends. They
are posted under 2, 3 and 1, and `b` reaches `g_mutex` last. -/
def overtaken : List Act :=
  [.preputTime 0, .preputId 0, .preputLock 0,
   .preputTime 1, .preputId 1, .preputLock 1, .postputTime 1 2 3,
   .preputTime 2, .preputId 2, .preputLock 2, .postputTime 2 3 1, .postputLock 2,
   .postputTime 0 1 2, .postputLock 0,
   .postputLock 1]

theorem history_inversions_reported_iff_overtaken :
    ∃ s, runs Sys.step Sys.init overtaken = some s ∧
      (InversionsReported s.merged ↔
        ∀ before p after, s.posted = before ++ p :: after → ¬ Escapes before p) :=
  ⟨_, rfl, history_inversions_reported_iff overtaken _ rfl ⟨4, by decide, by decide, by decide⟩⟩

/-- All three are merged, no section reports or fails, and `b`, which ended at 3,
stands after `a`, which started at 4. -/
theorem history_inversion_unnoticed :
    ∃ s, runs Sys.step Sys.init overtaken = some s ∧
      s.merged =
        [⟨{ id := 3, start := 4, end_ := 5, ts := 1 }, false⟩,
         ⟨{ id := 1, start := 1, end_ := 6, ts := 2 }, false⟩,
         ⟨{ id := 2, start := 2, end_ := 3, ts := 3 }, false⟩] ∧
      (∀ c ∈ s.sections, c.ok = true ∧ check c.acl = false) ∧
      Inverted { id := 3, start := 4, end_ := 5, ts := 1 }
        { id := 2, start := 2, end_ := 3, ts := 3 } :=
  ⟨_, rfl, by decide, by decide, by decide⟩

end Lpad
