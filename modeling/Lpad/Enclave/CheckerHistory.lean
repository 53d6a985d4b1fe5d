import Lpad.Enclave.CheckerIds
import Lpad.Enclave.TruncateRun

/-!
# The history between two sections

The numbers on their way to `g_mutex` (`Flying`), and the state of the history between two
sections of `enclave_postput`. Posted ops are arrivals at `g_mutex`. The history stands at the
largest `m` such that `1..m` have arrived (`Kept`), and the run that a section takes out of
`completed_list` is the numbers its arrival completes (`Cut`). Where every number arrives once
and none against real time, no section fails (`Filed`).
-/

namespace Lpad

/-! ## Numbers -/

/-- The numbers on their way to `g_mutex` and the numbers posted are among those
`used` and pairwise different. -/
structure Flying (s : Sys) (used : List Nat) : Prop where
  flying : ∀ t id seq time, s.threads t = .postputTimed id seq time →
    seq ∈ used ∧ seq ∉ s.posted.map Prod.fst
  apart : ∀ t t' id id' seq time time', s.threads t = .postputTimed id seq time →
    s.threads t' = .postputTimed id' seq time' → t = t'
  posted : s.posted.map Prod.fst ⊆ used
  nodup : (s.posted.map Prod.fst).Nodup

theorem Flying.init : Flying Sys.init [] where
  flying := fun t id seq time h => by simp [Sys.init] at h
  apart := fun t t' id id' seq time time' h => by simp [Sys.init] at h
  posted := by simp [Sys.init]
  nodup := List.nodup_nil

namespace Flying

variable {s : Sys} {used : List Nat}

/-- Steps of `enclave_preput` concern no number. -/
theorem preput (h : Flying s used) {s' : Sys} {t : Nat} {th : Thread}
    (hth : ∀ id seq time, th ≠ .postputTimed id seq time)
    (hthreads : s'.threads = Function.update s.threads t th) (hposted : s'.posted = s.posted) :
    Flying s' used := by
  have hold : ∀ t' id seq time, s'.threads t' = .postputTimed id seq time →
      s.threads t' = .postputTimed id seq time := by
    intro t' id seq time ht
    rw [hthreads] at ht
    rcases update_thread_cases ht with ⟨-, h'⟩ | ⟨-, h'⟩
    · exact absurd h' (hth id seq time)
    · exact h'
  constructor
  case flying =>
    intro t' id seq time ht
    rw [hposted]
    exact h.flying t' id seq time (hold _ _ _ _ ht)
  case apart =>
    intro t1 t2 id id' seq time time' h1 h2
    exact h.apart t1 t2 id id' seq time time' (hold _ _ _ _ h1) (hold _ _ _ _ h2)
  case posted =>
    rw [hposted]
    exact h.posted
  case nodup =>
    rw [hposted]
    exact h.nodup

theorem postputTime (h : Flying s used) {t id seq : Nat} (hnew : seq ∉ used) :
    Flying ({ s with
        enc := s.enc.getTime
        returned := s.returned.erase id }.setThread t
          (.postputTimed id seq s.enc.getTime.gTimer)) (used ++ [seq]) := by
  constructor
  case flying =>
    intro t' id' seq' time ht
    rcases update_thread_cases ht with ⟨-, h'⟩ | ⟨-, h'⟩
    · cases h'
      exact ⟨by simp, fun hmem => hnew (h.posted hmem)⟩
    · obtain ⟨hused, hnot⟩ := h.flying t' id' seq' time h'
      exact ⟨List.mem_append_left _ hused, hnot⟩
  case apart =>
    intro t1 t2 id1 id2 seq' time1 time2 h1 h2
    rcases update_thread_cases h1 with ⟨ht1, e1⟩ | ⟨-, e1⟩
    · rcases update_thread_cases h2 with ⟨ht2, -⟩ | ⟨-, e2⟩
      · exact ht1.trans ht2.symm
      · cases e1
        exact absurd (h.flying t2 id2 seq time2 e2).1 hnew
    · rcases update_thread_cases h2 with ⟨-, e2⟩ | ⟨-, e2⟩
      · cases e2
        exact absurd (h.flying t1 id1 seq time1 e1).1 hnew
      · exact h.apart t1 t2 id1 id2 seq' time1 time2 e1 e2
  case posted => exact fun k hk => List.mem_append_left _ (h.posted hk)
  case nodup => exact h.nodup

theorem post (h : Flying s used) {t id seq time : Nat} {op : Op}
    (htimed : s.threads t = .postputTimed id seq time) :
    Flying (s.post t id seq time op) used := by
  obtain ⟨hused, hnot⟩ := h.flying t id seq time htimed
  have hposted : (s.post t id seq time op).posted.map Prod.fst =
      s.posted.map Prod.fst ++ [seq] := by
    simp [Sys.post]
  constructor
  case flying =>
    intro t' id' seq' time' ht
    rcases update_thread_cases ht with ⟨-, h'⟩ | ⟨hne, h'⟩
    · simp at h'
    · obtain ⟨hused', hnot'⟩ := h.flying t' id' seq' time' h'
      refine ⟨hused', ?_⟩
      rw [hposted, List.mem_append, List.mem_singleton]
      rintro (hmem | rfl)
      · exact hnot' hmem
      · exact hne (h.apart t' t id' id seq' time' time h' htimed)
  case apart =>
    intro t1 t2 id1 id2 seq' time1 time2 h1 h2
    rcases update_thread_cases h1 with ⟨-, h1⟩ | ⟨-, h1⟩
    · simp at h1
    · rcases update_thread_cases h2 with ⟨-, h2⟩ | ⟨-, h2⟩
      · simp at h2
      · exact h.apart t1 t2 id1 id2 seq' time1 time2 h1 h2
  case posted =>
    rw [hposted]
    refine List.append_subset.mpr ⟨h.posted, ?_⟩
    exact fun k hk => List.mem_singleton.mp hk ▸ hused
  case nodup =>
    rw [hposted]
    exact List.nodup_append_comm.mp (List.nodup_cons.mpr ⟨hnot, h.nodup⟩)

end Flying

/-! ## Arrivals -/

/-- The numbers `1..m` have all arrived, and `m + 1` has not. -/
structure ReachesTo (arrivals : List (Nat × Op)) (m : Nat) : Prop where
  upTo : ∀ k, 0 < k → k ≤ m → k ∈ arrivals.map Prod.fst
  gap : m + 1 ∉ arrivals.map Prod.fst

/-- The write that arrived first under a number. -/
def writeOf (arrivals : List (Nat × Op)) (k : Nat) : Op :=
  (StdMap.find arrivals k).getD HistoryW.init.latest

section Arrivals

variable {arrivals : List (Nat × Op)} {m k : Nat}

theorem ReachesTo.unique (h : ReachesTo arrivals m) {m' : Nat} (h' : ReachesTo arrivals m') :
    m = m' := by
  rcases Nat.lt_trichotomy m m' with hlt | heq | hgt
  · exact absurd (h'.upTo (m + 1) (Nat.succ_pos m) hlt) h.gap
  · exact heq
  · exact absurd (h.upTo (m' + 1) (Nat.succ_pos m') hgt) h'.gap

theorem ReachesTo.lt_missing (h : ReachesTo arrivals m) (hk : 0 < k)
    (hmissing : k ∉ arrivals.map Prod.fst) : m < k := by
  by_contra hle
  exact hmissing (h.upTo k hk (Nat.le_of_not_lt hle))

theorem writeOf_mem (hk : k ∈ arrivals.map Prod.fst) : (k, writeOf arrivals k) ∈ arrivals := by
  obtain ⟨op, hop⟩ := Option.ne_none_iff_exists'.mp (mt StdMap.find_eq_none_iff.mp (not_not.mpr hk))
  rw [writeOf, hop]
  exact StdMap.mem_of_find hop

/-- A number that has arrived keeps its write. -/
theorem writeOf_append (hk : k ∈ arrivals.map Prod.fst) (p : Nat × Op) :
    writeOf (arrivals ++ [p]) k = writeOf arrivals k := by
  obtain ⟨op, hop⟩ := Option.ne_none_iff_exists'.mp (mt StdMap.find_eq_none_iff.mp (not_not.mpr hk))
  rw [writeOf, writeOf, StdMap.find_append, hop]
  rfl

end Arrivals

/-! ## The history -/

/-- **The history has kept up with the arrivals**: it stands at `m`, the first number that is
missing is the next, and `completed_list` has what arrived first under the numbers above. -/
structure Kept (s : Sys) (m : Nat) : Prop where
  reaches : ReachesTo s.posted m
  latest : s.enc.history.latest.ts = m
  newest : 0 < m → s.enc.history.latest = writeOf s.posted m
  origin : m = 0 → s.enc.history.latest.start = 0
  completed : ∀ k, m < k → k < 2 ^ 32 → s.enc.completedList.find k = StdMap.find s.posted k
  stamped : ∀ k op, StdMap.find s.posted k = some op → op.ts = uint32 k
  merged : s.merged.map Merged.op = (List.range' 1 m).map (writeOf s.posted)

theorem Kept.init : Kept Sys.init 0 where
  reaches := ⟨fun k h0 hk => absurd h0 (Nat.not_lt.mpr hk), by simp [Sys.init]⟩
  latest := rfl
  newest := fun h => absurd h (Nat.lt_irrefl 0)
  origin := fun _ => rfl
  completed := fun _ _ _ => rfl
  stamped := fun k op h => by cases h
  merged := rfl

theorem Kept.frame {s s' : Sys} {m : Nat} (h : Kept s m) (hhis : s'.enc.history = s.enc.history)
    (hcomp : s'.enc.completedList = s.enc.completedList) (hposted : s'.posted = s.posted)
    (hmerged : s'.merged = s.merged) : Kept s' m := by
  obtain ⟨hreaches, hlatest, hnewest, horigin, hcompleted, hstamped, hops⟩ := h
  rw [← hhis] at hlatest hnewest horigin
  rw [← hcomp] at hcompleted
  rw [← hposted] at hreaches hnewest hcompleted hstamped hops
  rw [← hmerged] at hops
  exact ⟨hreaches, hlatest, hnewest, horigin, hcompleted, hstamped, hops⟩

/-- A section run when the history has kept up: its run is the numbers that the arrival
completes. -/
structure Cut (s : Sys) (p : Nat × Op) (m j : Nat) : Prop where
  reaches : ReachesTo (s.posted ++ [p]) (m + j)
  small : m + j < 2 ^ 32
  acl : (truncate (s.enc.filed p.2 p.1) s.enc.history).1 =
    (List.range' (m + 1) j).map (writeOf (s.posted ++ [p]))
  taken : ∀ k, m < k → k ≤ m + j →
    (truncate (s.enc.filed p.2 p.1) s.enc.history).2.find k = none
  rest : ∀ k, m + j < k → k < 2 ^ 32 →
    (truncate (s.enc.filed p.2 p.1) s.enc.history).2.find k = StdMap.find (s.posted ++ [p]) k

/-- Some number below `2^32` is missing, so the counter of `truncate` does not wrap. -/
theorem Kept.cut {s : Sys} {m : Nat} (h : Kept s m) (p : Nat × Op) {missing : Nat}
    (hpos : 0 < missing) (hsmall : missing < 2 ^ 32)
    (hmissing : missing ∉ (s.posted ++ [p]).map Prod.fst) : ∃ j, Cut s p m j := by
  have hm : m < missing := by
    apply h.reaches.lt_missing hpos
    exact fun hmem => hmissing (by rw [List.map_append]; exact List.mem_append_left _ hmem)
  have hfind : ∀ k, m < k → k < 2 ^ 32 →
      (s.enc.filed p.2 p.1).find k = StdMap.find (s.posted ++ [p]) k := by
    intro k hk hlt
    rw [Checker.filed, StdMap.find_insert, StdMap.find_append, h.completed k hk hlt]
  have hnone := StdMap.find_eq_none_iff.mpr hmissing
  obtain ⟨j, hcut⟩ := (truncate_cutFrom_iff (s.enc.filed p.2 p.1)
    (h.latest.trans (uint32_of_lt (hm.trans hsmall)).symm)).mpr fun hall =>
      absurd ((hfind missing hm hsmall).trans hnone) (hall missing hm hsmall)
  -- the run stops before the missing number
  have hstop : m + j < missing := by
    by_contra hle
    obtain ⟨i, hi⟩ := Nat.exists_eq_add_of_lt hm
    obtain ⟨op, -, hop⟩ := hcut.get (i := i) (by omega)
    rw [Nat.add_right_comm, ← hi, hfind missing hm hsmall, hnone] at hop
    cases hop
  have hget : ∀ i < j, ∃ op, (truncate (s.enc.filed p.2 p.1) s.enc.history).1[i]? = some op ∧
      StdMap.find (s.posted ++ [p]) (m + 1 + i) = some op := by
    intro i hi
    obtain ⟨op, hacl, hop⟩ := hcut.get hi
    rw [hfind _ (by omega) (by omega)] at hop
    exact ⟨op, hacl, hop⟩
  refine ⟨j, ⟨?_, ?_⟩, by omega, ?_, ?_, ?_⟩
  · intro k hk0 hk
    by_cases hkm : k ≤ m
    · rw [List.map_append]
      exact List.mem_append_left _ (h.reaches.upTo k hk0 hkm)
    · obtain ⟨i, rfl⟩ := Nat.exists_eq_add_of_lt (Nat.lt_of_not_le hkm)
      obtain ⟨op, -, hop⟩ := hget i (by omega)
      by_contra hnot
      rw [Nat.add_right_comm, StdMap.find_eq_none_iff.mpr hnot] at hop
      cases hop
  · rw [← StdMap.find_eq_none_iff, Nat.add_right_comm, ← hfind _ (by omega) (by omega)]
    exact hcut.stop
  · refine List.ext_getElem? fun i => ?_
    rcases Nat.lt_or_ge i j with hi | hi
    · obtain ⟨op, hacl, hop⟩ := hget i hi
      rw [hacl, List.getElem?_map, List.getElem?_range' hi, Nat.one_mul, Option.map_some, writeOf,
        hop]
      rfl
    · rw [List.getElem?_eq_none (hcut.length.trans_le hi),
        List.getElem?_eq_none (by simpa using hi)]
  · intro k hk hle
    rw [hcut.rest, if_pos (by omega)]
  · intro k hk hlt
    rw [hcut.rest, if_neg (by omega), hfind k (by omega) hlt]

namespace Cut

variable {s : Sys} {p : Nat × Op} {m j : Nat}

/-- The ops of the run and those merged before, by number. -/
theorem history (h : Kept s m) (hcut : Cut s p m j) :
    s.merged.map Merged.op ++ (truncate (s.enc.filed p.2 p.1) s.enc.history).1 =
      (List.range' 1 (m + j)).map (writeOf (s.posted ++ [p])) := by
  rw [h.merged, hcut.acl, ← List.range'_append_1, List.map_append, Nat.add_comm 1 m]
  congr 1
  apply List.map_congr_left
  intro k hk
  obtain ⟨hle, hlt⟩ := List.mem_range'_1.mp hk
  exact (writeOf_append (h.reaches.upTo k hle (by omega)) p).symm

/-- The write of a number carries it. -/
theorem ts_eq (h : Kept s m) (hcut : Cut s p m j) (hp : p.2.ts = uint32 p.1) {k : Nat}
    (h0 : 0 < k) (hk : k ≤ m + j) : (writeOf (s.posted ++ [p]) k).ts = k := by
  have hmem := hcut.reaches.upTo k h0 hk
  obtain ⟨op, hop⟩ :=
    Option.ne_none_iff_exists'.mp (mt StdMap.find_eq_none_iff.mp (not_not.mpr hmem))
  have hts : op.ts = uint32 k := by
    rw [StdMap.find_append] at hop
    rcases Option.or_eq_some_iff.mp hop with hold | ⟨-, hnew⟩
    · exact h.stamped k op hold
    · obtain ⟨n, v⟩ := p
      cases List.mem_singleton.mp (StdMap.mem_of_find hnew)
      exact hp
  rw [writeOf, hop]
  exact hts.trans (uint32_of_lt (hk.trans_lt hcut.small))

/-- `try_merge`, by number. -/
theorem ok_iff (h : Kept s m) (hcut : Cut s p m j) :
    (tryMerge s.enc.history (truncate (s.enc.filed p.2 p.1) s.enc.history).1).isSome ↔
      (0 < m → 0 < j →
        (writeOf s.posted m).start ≤ (writeOf (s.posted ++ [p]) (m + 1)).end_) := by
  rw [tryMerge_isSome_iff, hcut.acl]
  cases j with
  | zero => simp
  | succ j =>
    rw [List.range'_succ, List.map_cons, List.head?_cons]
    rcases Nat.eq_zero_or_pos m with rfl | hpos
    · simp [h.origin rfl]
    · simp [hpos, h.newest hpos]

end Cut

/-- A section that merges leaves a history that has kept up. -/
theorem Kept.post {s : Sys} {m j : Nat} (h : Kept s m) {t id seq time : Nat} {op : Op}
    (hcut : Cut s (seq, op.posted seq time) m j)
    (hok : (s.sectionOf op seq time).ok = true) : Kept (s.post t id seq time op) (m + j) := by
  obtain ⟨his, hmerge⟩ := Option.isSome_iff_exists.mp hok
  have hhis : (s.enc.postputSection id seq (op.posted seq time)).history = his :=
    Checker.postputSection_history hmerge
  rw [tryMerge_eq_some ((tryMerge_isSome_iff _ _).mp hok), Option.some.injEq] at hmerge
  have hlast : his.latest = if j = 0 then s.enc.history.latest
      else writeOf (s.posted ++ [(seq, op.posted seq time)]) (m + j) := by
    rw [← hmerge]
    show (Section.acl _).getLast?.getD _ = _
    have hacl : (s.sectionOf op seq time).acl = _ := hcut.acl
    rw [hacl]
    cases j with
    | zero => rfl
    | succ j =>
      rw [if_neg (Nat.succ_ne_zero j), List.range'_concat, List.map_append, List.map_singleton,
        List.getLast?_concat, Option.getD_some, Nat.one_mul, Nat.add_right_comm, Nat.add_assoc]
  constructor
  case reaches => exact hcut.reaches
  case latest =>
    show (s.enc.postputSection id seq (op.posted seq time)).history.latest.ts = m + j
    rw [hhis, hlast]
    split
    · rename_i hj
      rw [hj]
      exact h.latest
    · exact hcut.ts_eq h rfl (by omega) (Nat.le_refl _)
  case newest =>
    intro hpos
    show (s.enc.postputSection id seq (op.posted seq time)).history.latest = _
    rw [hhis, hlast]
    split
    · rename_i hj
      subst hj
      rw [h.newest hpos]
      exact (writeOf_append (h.reaches.upTo m hpos (Nat.le_refl m)) _).symm
    · rfl
  case origin =>
    intro hzero
    obtain ⟨hm, hj⟩ := Nat.add_eq_zero_iff.mp hzero
    show (s.enc.postputSection id seq (op.posted seq time)).history.latest.start = 0
    rw [hhis, hlast, if_pos hj]
    exact h.origin hm
  case completed =>
    intro k hk hlt
    show (s.enc.postputSection id seq (op.posted seq time)).completedList.find k = _
    rw [Checker.postputSection_completedList]
    exact hcut.rest k hk hlt
  case stamped =>
    intro k o ho
    change StdMap.find (s.posted ++ [(seq, op.posted seq time)]) k = some o at ho
    rw [StdMap.find_append] at ho
    rcases Option.or_eq_some_iff.mp ho with hold | ⟨-, hnew⟩
    · exact h.stamped k o hold
    · cases List.mem_singleton.mp (StdMap.mem_of_find hnew)
      rfl
  case merged =>
    have hmerges : (s.sectionOf op seq time).merges =
        (s.sectionOf op seq time).acl.map fun o => ⟨o, check (s.sectionOf op seq time).acl⟩ :=
      if_pos hok
    show (s.merged ++ (s.sectionOf op seq time).merges).map Merged.op = _
    rw [List.map_append, hmerges, List.map_map]
    exact (congrArg _ (List.map_id _)).trans (hcut.history h)

/-! ## Numbers that arrive once -/

/-- The numbers agree with the stamps: never `a` before `b` although the clock had not reached
`a`'s start at `b`'s end. -/
def Consistent (posted : List (Nat × Op)) : Prop :=
  ∀ a ∈ posted, ∀ b ∈ posted, a.1 < b.1 → ¬ b.2.end_ < a.2.start

theorem Consistent.mono {posted posted' : List (Nat × Op)} (h : Consistent posted')
    (hsub : posted ⊆ posted') : Consistent posted :=
  fun a ha b hb => h a (hsub ha) b (hsub hb)

/-- **`history` stands at `m`**, no section has failed, and `completed_list` has nothing that is
merged already. -/
structure Filed (s : Sys) (m : Nat) : Prop extends Kept s m where
  free : s.enc.gMutex = false
  merges : ∀ c ∈ s.sections, c.ok = true
  above : ∀ k op, s.enc.completedList.find k = some op → (k, op) ∈ s.posted ∧ m < k

theorem Filed.init : Filed Sys.init 0 where
  toKept := Kept.init
  free := rfl
  merges := by simp [Sys.init]
  above := fun k op h => by cases h

/-- A step that leaves the history, `completed_list` and the records alone. -/
theorem Filed.frame {s s' : Sys} {m : Nat} (h : Filed s m) (hfree : s'.enc.gMutex = s.enc.gMutex)
    (hhis : s'.enc.history = s.enc.history)
    (hcomp : s'.enc.completedList = s.enc.completedList) (hposted : s'.posted = s.posted)
    (hmerged : s'.merged = s.merged) (hsections : s'.sections = s.sections) : Filed s' m where
  toKept := h.toKept.frame hhis hcomp hposted hmerged
  free := hfree.trans h.free
  merges := hsections ▸ h.merges
  above := by
    rw [hcomp, hposted]
    exact h.above

/-- `completed_list` holds exactly what is posted above `m`. -/
theorem Filed.completed_iff {s : Sys} {m : Nat} (h : Filed s m)
    (hnodup : (s.posted.map Prod.fst).Nodup) (hsmall : ∀ k ∈ s.posted.map Prod.fst, k < 2 ^ 32)
    (k : Nat) (op : Op) :
    s.enc.completedList.find k = some op ↔ (k, op) ∈ s.posted ∧ m < k := by
  refine ⟨h.above k op, ?_⟩
  rintro ⟨hmem, hk⟩
  have hkey : k ∈ s.posted.map Prod.fst := List.mem_map.mpr ⟨_, hmem, rfl⟩
  have hsame := List.inj_on_of_nodup_map hnodup (writeOf_mem hkey) hmem rfl
  rw [h.completed k hk (hsmall k hkey)]
  obtain ⟨op', hop'⟩ :=
    Option.ne_none_iff_exists'.mp (mt StdMap.find_eq_none_iff.mp (not_not.mpr hkey))
  rw [writeOf, hop'] at hsame
  rw [hop']
  exact congrArg some (Prod.mk.inj hsame).2

/-- **The section of `enclave_postput`.** It merges, and the history moves on to
the last number before the next gap. -/
theorem Filed.post {s : Sys} {m : Nat} (h : Filed s m) {t id seq time : Nat} {op : Op}
    (hpos : 0 < seq) (hnew : seq ∉ s.posted.map Prod.fst) {missing : Nat} (hmissing : 0 < missing)
    (hsmall : missing < 2 ^ 32)
    (hnot : missing ∉ (s.posted ++ [(seq, op.posted seq time)]).map Prod.fst)
    (hreal : Consistent (s.post t id seq time op).posted) :
    ∃ m', Filed (s.post t id seq time op) m' := by
  obtain ⟨j, hcut⟩ := h.cut (seq, op.posted seq time) hmissing hsmall hnot
  have hok : (s.sectionOf op seq time).ok = true := by
    refine (hcut.ok_iff h.toKept).mpr fun hm hj => ?_
    -- the number after the latest one did not end before that one started
    refine Nat.le_of_not_lt
      (hreal (m, writeOf s.posted m) ?_ (m + 1, writeOf _ (m + 1)) (writeOf_mem ?_)
        (Nat.lt_succ_self m))
    · exact List.mem_append_left _ (writeOf_mem (h.reaches.upTo m hm (Nat.le_refl m)))
    · exact hcut.reaches.upTo (m + 1) (Nat.succ_pos m) (by omega)
  obtain ⟨his, hmerge⟩ := Option.isSome_iff_exists.mp hok
  refine ⟨m + j, h.toKept.post hcut hok, ?_, ?_, ?_⟩
  · exact (Checker.postputSection_gMutex hmerge).trans h.free
  · intro c hc
    rcases List.mem_append.mp hc with hc | hc
    · exact h.merges c hc
    · rw [List.mem_singleton.mp hc]
      exact hok
  · intro k o ho
    change (s.enc.postputSection id seq (op.posted seq time)).completedList.find k = some o at ho
    rw [Checker.postputSection_completedList] at ho
    have hfiled := truncateLoop_find _ ho
    rw [Checker.filed, StdMap.find_insert] at hfiled
    have hk : (k, o) ∈ s.posted ++ [(seq, op.posted seq time)] ∧ m < k := by
      rcases Option.or_eq_some_iff.mp hfiled with hold | ⟨-, hadded⟩
      · exact (h.above k o hold).imp_left (List.mem_append_left _)
      · have hlast := List.mem_singleton.mp (StdMap.mem_of_find hadded)
        refine ⟨hlast ▸ List.mem_append_right _ List.mem_cons_self, ?_⟩
        by_contra hle
        obtain rfl := (Prod.mk.inj hlast).1
        exact hnew (h.reaches.upTo k hpos (Nat.le_of_not_lt hle))
    refine ⟨hk.1, ?_⟩
    by_contra hle
    rw [hcut.taken k hk.2 (Nat.le_of_not_lt hle)] at ho
    cases ho

end Lpad
