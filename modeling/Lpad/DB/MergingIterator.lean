import Lpad.DB.CompactionWork
import Lpad.Enclave.MergeOrder
import Lpad.Table.Merger

/-!
# The input of a compaction

`VersionSet::MakeInputIterator` puts a merging iterator over the inputs of a compaction.
The build without the enclave reads its compactions from it, forward from `SeekToFirst`.

`newMergingIterator_yields` says what it delivers: a merge of the inputs that is greedy for
`InternalKeyComparator`.
-/

namespace Lpad

/-- An iterator over one input: its entries, those it has left, and what `status()`
answers while these are left. -/
structure InputIterator where
  entries : List Record
  rest : List Record
  status : List Record → Status

/-- The two motions that a compaction makes. -/
def InputIterator.move (it : InputIterator) : Motion Bytes → Option InputIterator
  | .seekToFirst => some { it with rest := it.entries }
  | .next => if it.rest = [] then none else some { it with rest := it.rest.tail }
  | _ => none

def inputIterator : Iterator InputIterator Bytes Bytes where
  valid it := !it.rest.isEmpty
  key it := (it.rest.head?.map Record.key).getD []
  value it := (it.rest.head?.map Record.value).getD []
  move m it := it.move m

/-- What `NewMergingIterator` returns for the inputs. -/
abbrev MergedInput : Type := Table.Merged InputIterator

def mergedInput : Iterator MergedInput Bytes Bytes :=
  Table.mergedIterator inputIterator internalKeyCompare

/-- `key()` and `value()`; `none` when the iterator is not valid. -/
def MergedInput.entry (input : MergedInput) : Option Record :=
  (mergedInput.entry input).map fun e => ⟨e.key, e.value⟩

def MergedInput.status (input : MergedInput) : Status :=
  Table.Merged.status (fun it => it.status it.rest) input

/-- `VersionSet::MakeInputIterator`. The channels are those of `SU_PrepareInputs`;
`midway` says what their `status()` is while there are entries left. -/
def CompactionJob.makeInputIterator (job : CompactionJob)
    (midway : Nat → List Record → Status) : MergedInput :=
  Table.newMergingIterator inputIterator (fun c => ⟨job.iter c, [], fun rest =>
    if rest = [] then ((job.inputs[c]?).map Input.status).getD .ok else midway c rest⟩) job.nWays

/-! ## What the iterator yields -/

/-- The entries that the iterator delivers until it is not valid, with a status that is OK
all the way. -/
inductive MergedInput.Yields : MergedInput → List Record → Prop
  | nil {input : MergedInput} (h : input.entry = none) (hstatus : input.status = .ok) :
      Yields input []
  | cons {input next : MergedInput} {r : Record} {rest : List Record}
      (h : input.entry = some r) (hstatus : input.status = .ok)
      (hnext : mergedInput.move .next input = some next) (hrest : Yields next rest) :
      Yields input (r :: rest)

/-- A wrapper around an input that has `rest` left and does not fail. -/
structure Wraps (w : Table.IteratorWrapper InputIterator) (rest : List Record) : Prop where
  left : w.iter.rest = rest
  valid : w.valid = !rest.isEmpty
  key : ∀ r, rest.head? = some r → w.key = r.key
  status : ∀ rest, w.iter.status rest = .ok

theorem wraps_update (w : Table.IteratorWrapper InputIterator) {it : InputIterator}
    (hstatus : ∀ rest, it.status rest = .ok) : Wraps (w.update inputIterator it) it.rest where
  left := rfl
  valid := rfl
  key r hr := by
    obtain ⟨rest, hrest⟩ := List.head?_eq_some_iff.mp hr
    simp [Table.IteratorWrapper.update, inputIterator, hrest]
  status := hstatus

theorem Wraps.valid_iff {w : Table.IteratorWrapper InputIterator} {rest : List Record}
    (h : Wraps w rest) : w.valid = true ↔ ∃ r, rest.head? = some r := by
  rw [h.valid]
  cases rest <;> simp

section Merging

variable {children : Nat → Table.IteratorWrapper InputIterator} {chans : Nat → List Record}
  {n : Nat}

/-- `FindSmallest` finds the child with the least key, the first one among equals. -/
theorem leastHead_of_found (h : ∀ c < n, Wraps (children c) (chans c)) {c : Nat}
    (hfound : Table.Found keyRank children (List.range n) (some c)) :
    ∃ r, LeastHead Record.rank n chans c r := by
  have hc : c < n := List.mem_range.mp hfound.least.1
  obtain ⟨hvalid, before, after, horder, hbefore, hafter⟩ := hfound
  obtain ⟨r, hr⟩ := (h c hc).valid_iff.mp hvalid
  have hrank : keyRank (children c).key = r.rank := congrArg keyRank ((h c hc).key r hr)
  refine ⟨r, hc, hr, ?_⟩
  intro d hd y hy
  have hv : (children d).valid = true := (h d hd).valid_iff.mpr ⟨y, hy⟩
  have hy' : keyRank (children d).key = y.rank := congrArg keyRank ((h d hd).key y hy)
  rw [← hrank, ← hy']
  have hmem : d ∈ before ++ c :: after := horder ▸ List.mem_range.mpr hd
  rcases List.mem_append.mp hmem with hmem | hmem
  · exact ⟨(hbefore d hmem hv).le, fun _ => hbefore d hmem hv⟩
  · -- the children after `c` in the loop have larger numbers
    have hsorted : (before ++ c :: after).Pairwise (· < ·) := horder ▸ List.pairwise_lt_range
    have hafter' := List.pairwise_cons.mp (List.pairwise_append.mp hsorted).2.1
    rcases List.mem_cons.mp hmem with rfl | hmem
    · exact ⟨le_rfl, fun hlt => absurd hlt (lt_irrefl d)⟩
    · exact ⟨hafter d hmem hv, fun hlt => absurd hlt (not_lt_of_gt (hafter'.1 d hmem))⟩

/-- No child has an entry left. -/
theorem nil_of_found (h : ∀ c < n, Wraps (children c) (chans c))
    (hfound : Table.Found keyRank children (List.range n) none) : ∀ c < n, chans c = [] := by
  intro c hc
  have hvalid := (h c hc).valid
  rw [hfound c (List.mem_range.mpr hc)] at hvalid
  simpa using hvalid

theorem status_merging (h : ∀ c < n, Wraps (children c) (chans c)) (current : Option Nat) :
    MergedInput.status (.merging ⟨children, n, current, .forward⟩) = .ok := by
  refine Status.isOk_iff.mp ((Table.MergingIterator.status_isOk _ _).mpr fun c hc => ?_)
  rw [(h c hc).status]
  rfl

/-- `Next` moves the current child on. -/
theorem next_merging (h : ∀ c < n, Wraps (children c) (chans c)) {c : Nat} {r : Record}
    {rest : List Record} (hc : c < n) (hr : chans c = r :: rest) :
    ∃ children', (∀ d < n, Wraps (children' d) (Function.update chans c rest d)) ∧
      mergedInput.move .next (.merging ⟨children, n, some c, .forward⟩) =
        some (.merging (Table.MergingIterator.findSmallest internalKeyCompare
          ⟨children', n, some c, .forward⟩)) := by
  have hleft : (children c).iter.rest = r :: rest := (h c hc).left.trans hr
  have hmove : (children c).move inputIterator .next =
      some ((children c).update inputIterator { (children c).iter with rest := rest }) := by
    simp [Table.IteratorWrapper.move, inputIterator, InputIterator.move, hleft]
  refine ⟨Function.update children c
    ((children c).update inputIterator { (children c).iter with rest := rest }), ?_, ?_⟩
  · intro d hd
    by_cases hdc : d = c
    · subst hdc
      rw [Function.update_self, Function.update_self]
      exact wraps_update _ (h d hd).status
    · rw [Function.update_of_ne hdc, Function.update_of_ne hdc]
      exact h d hd
  · simp [mergedInput, Table.mergedIterator, Table.mergingIterator, Table.MergingIterator.next,
      Table.MergingIterator.ensureAfter, hmove]

theorem entry_merging (h : ∀ c < n, Wraps (children c) (chans c)) {c : Nat} {r : Record}
    (hc : c < n) (hr : (chans c).head? = some r) :
    MergedInput.entry (.merging ⟨children, n, some c, .forward⟩) = some r := by
  show some (Record.mk (children c).key (inputIterator.value (children c).iter)) = some r
  rw [(h c hc).key r hr]
  simp [inputIterator, (h c hc).left, hr]

/-- **A merging iterator merges greedily.** The induction is on the number of entries
that are left. -/
theorem merging_yields (h : ∀ c < n, Wraps (children c) (chans c)) (current : Option Nat) :
    ∃ picks out, Draws n chans picks out ∧ Greedy Record.rank n chans picks ∧
      MergedInput.Yields (.merging (Table.MergingIterator.findSmallest internalKeyCompare
        ⟨children, n, current, .forward⟩)) out := by
  induction hlen : ((List.range n).flatMap chans).length using Nat.strong_induction_on
    generalizing children chans current with
  | _ k ih =>
    have hless : ∀ a b, internalKeyCompare a b = .lt ↔ keyRank a < keyRank b :=
      fun _ _ => internalKeyCompare_lt_iff
    have hfound := Table.foldl_findStep hless children (List.range n)
    unfold Table.MergingIterator.findSmallest
    dsimp only
    generalize (List.range n).foldl (Table.findStep internalKeyCompare .lt children) none = found
      at hfound ⊢
    cases found with
    | none =>
      exact ⟨[], [], .nil (nil_of_found h hfound), trivial, .nil rfl (status_merging h none)⟩
    | some c =>
      obtain ⟨r, hr⟩ := leastHead_of_found h hfound
      obtain ⟨rest, hrest⟩ := List.head?_eq_some_iff.mp hr.head
      obtain ⟨children', h', hnext⟩ := next_merging h hr.channel hrest
      have hsmaller : ((List.range n).flatMap (Function.update chans c rest)).length < k := by
        rw [← hlen, (flatMap_update_head hr.channel hrest).length_eq]
        exact Nat.lt_succ_self _
      obtain ⟨picks, out, hdraws, hgreedy, hyields⟩ := ih _ hsmaller h' (some c) rfl
      exact ⟨c :: picks, r :: out, .cons hr.channel hrest hdraws, hr.greedy hrest hgreedy,
        .cons (entry_merging h hr.channel hr.head) (status_merging h (some c)) hnext hyields⟩

end Merging

theorem single_yields (it : InputIterator) (hstatus : ∀ rest, it.status rest = .ok) :
    MergedInput.Yields (.single it) it.rest := by
  induction hrest : it.rest generalizing it with
  | nil =>
    refine .nil ?_ (hstatus _)
    simp [MergedInput.entry, mergedInput, Iterator.entry, Table.mergedIterator, inputIterator,
      hrest]
  | cons r rest ih =>
    have hnext : mergedInput.move .next (.single it) = some (.single { it with rest := rest }) := by
      simp [mergedInput, Table.mergedIterator, inputIterator, InputIterator.move, hrest]
    refine .cons ?_ (hstatus _) hnext (ih _ hstatus rfl)
    simp [MergedInput.entry, mergedInput, Iterator.entry, Table.mergedIterator, inputIterator,
      hrest]

/-- What `NewMergingIterator` returns yields, after `SeekToFirst`, what every merge of the
inputs yields that is greedy for the comparator. -/
theorem newMergingIterator_yields {children : Nat → InputIterator} {n : Nat} {picks : List Nat}
    {out : List Record} (hstatus : ∀ c rest, (children c).status rest = .ok)
    (hdraws : Draws n (fun c => (children c).entries) picks out)
    (hgreedy : Greedy Record.rank n (fun c => (children c).entries) picks) :
    ∃ input, mergedInput.move .seekToFirst (Table.newMergingIterator inputIterator children n) =
      some input ∧ MergedInput.Yields input out := by
  unfold Table.newMergingIterator
  split
  case isTrue hn =>
    subst hn
    rw [hdraws.eq_nil_of_zero]
    exact ⟨.empty, rfl, .nil rfl rfl⟩
  case isFalse =>
    split
    case isTrue hn =>
      subst hn
      rw [hdraws.eq_of_single]
      exact ⟨_, rfl, single_yields { children 0 with rest := (children 0).entries } (hstatus 0)⟩
    case isFalse =>
      have hfirst : ∀ c < n, ∃ w, Table.IteratorWrapper.move inputIterator .seekToFirst
          (.set inputIterator (children c)) = some w ∧ Wraps w (children c).entries :=
        fun c _ => ⟨_, rfl, wraps_update _ (hstatus c)⟩
      obtain ⟨children', hloop, hwraps⟩ := Table.forEachChild_spec
        (f := fun _ => Table.IteratorWrapper.move inputIterator .seekToFirst) hfirst
      obtain ⟨picks', out', hdraws', hgreedy', hyields⟩ := merging_yields hwraps none
      obtain ⟨-, rfl⟩ := hdraws.unique hgreedy hdraws' hgreedy'
      refine ⟨_, ?_, hyields⟩
      simp [mergedInput, Table.mergedIterator, Table.mergingIterator,
        Table.MergingIterator.seekToFirst, Table.MergingIterator.new, hloop,
        Table.MergingIterator.findSmallest]

end Lpad
