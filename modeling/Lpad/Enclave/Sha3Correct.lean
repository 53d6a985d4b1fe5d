import Lpad.Base.Keccak
import Lpad.Base.Run
import Lpad.Enclave.Sha3
import Mathlib.Data.Fintype.Basic
import Mathlib.Tactic.FinCases

/-!
# `sha3_update` and `sha3_final` compute Keccak

The 25 variables are the lanes of the standard, plane by plane. One half of the body of the
loop is one round: each of its groups reads the five lanes that rho and pi bring into one
plane. `xorbuf` adds words and then bytes, and both add the bytes of the input one by one.

So between two calls the two global variables are what the bytes since the last
`sha3_final` give, absorbed one at a time (`Sha3.after`), in whatever pieces they came.
-/

namespace Lpad

open Keccak

/-! ## One round -/

theorem rotlFixed_eq {y : Nat} (hy : y < 64) (x : Word64) : rotlFixed x y = x.rotateLeft y := by
  rw [rotlFixed, BitVec.rotateLeft, BitVec.rotateLeftAux, Nat.mod_eq_of_lt hy]
  split
  case isTrue => rfl
  case isFalse h =>
    have hzero : y = 0 := not_not.mp h
    have hover : x >>> 64 = 0 := BitVec.ushiftRight_eq_zero (le_refl 64)
    rw [hzero, BitVec.shiftLeft_zero, Nat.sub_zero, hover]
    exact BitVec.or_zero.symm

theorem rhoOffset_lt (x y : Fin 5) : rhoOffset x y < 64 := by
  rw [rhoOffset]
  split
  case h_1 => exact Nat.mod_lt _ (by decide)
  case h_2 => decide

/-- The variables as lanes of the standard. -/
def Lanes.toState (l : Lanes) : State :=
  #v[l.b.a, l.b.e, l.b.i, l.b.o, l.b.u, l.g.a, l.g.e, l.g.i, l.g.o, l.g.u,
    l.k.a, l.k.e, l.k.i, l.k.o, l.k.u, l.m.a, l.m.e, l.m.i, l.m.o, l.m.u,
    l.s.a, l.s.e, l.s.i, l.s.o, l.s.u]

/-- **Half of the loop's body** is a round. -/
theorem Lanes.thetaRhoPiChiIota_eq (c : Word64) (l : Lanes) :
    (l.thetaRhoPiChiIota c).toState = roundWith c l.toState := by
  apply State.ext_lane
  intro x y
  have hone : ∀ w : Word64, w.rotateLeft 1 = rotlFixed w 1 := fun w =>
    (rotlFixed_eq (by decide) w).symm
  have hoffset : ∀ (w : Word64) (x y : Fin 5),
      w.rotateLeft (rhoOffset x y) = rotlFixed w (rhoOffset x y) := fun w x y =>
    (rotlFixed_eq (rhoOffset_lt x y) w).symm
  simp only [roundWith, iota, chi, pi, rho, theta, State.lane_ofLanes, hone, hoffset]
  -- lane by lane; the offsets and the places are computed
  fin_cases x <;> fin_cases y <;> rfl

/-! ## The permutation -/

theorem keccakFRoundConstants_eq : ∀ i < 24,
    keccakFRoundConstants.getD i 0 = roundConstant i := by
  decide +kernel

theorem Lanes.iteration_eq {i : Nat} (hi : i < 12) (l : Lanes) :
    (l.iteration (2 * i)).toState = Keccak.round (2 * i + 1) (Keccak.round (2 * i) l.toState) := by
  rw [Lanes.iteration, thetaRhoPiChiIota_eq, thetaRhoPiChiIota_eq,
    keccakFRoundConstants_eq (2 * i) (by omega), keccakFRoundConstants_eq (2 * i + 1) (by omega)]
  rfl

/-- The loop does the 24 rounds. -/
theorem Lanes.loop_eq (l : Lanes) :
    ((List.range 12).foldl (fun l i => l.iteration (2 * i)) l).toState = keccakF l.toState := by
  apply foldl_range_induction (n := 12) (s := l) (P := fun i (l' : Lanes) => l'.toState =
    (List.range (2 * i)).foldl (fun a i => Keccak.round i a) l.toState) rfl
  intro i l' hi hrounds
  have hnext : 2 * (i + 1) = 2 * i + 1 + 1 := rfl
  rw [iteration_eq hi, hrounds, hnext, List.range_succ, List.range_succ]
  simp only [List.foldl_append, List.foldl_cons, List.foldl_nil]

theorem copyFromState_eq (s : Bytes) : (copyFromState s).toState = ofBytes s := by
  apply State.ext_lane
  intro x y
  rw [State.lane, State.lane, ofBytes, Vector.getElem_ofFn]
  fin_cases x <;> fin_cases y <;> rfl

/-- Words are stored one after the other. -/
theorem storeWord_append {front rest : Bytes} {i : Nat} (hfront : front.length = 8 * i)
    (w : Word64) :
    storeWord (front ++ rest) i w = (front ++ leBytes 8 w.toNat) ++ rest.drop 8 := by
  have hdrop : (front ++ rest).drop (8 * i + 8) = rest.drop 8 := by
    rw [← hfront, List.drop_append, List.drop_eq_nil_of_le (Nat.le_add_right _ _),
      Nat.add_sub_cancel_left, List.nil_append]
  rw [storeWord, List.take_left' hfront, hdrop]

def Plane.bytes (p : Plane) : Bytes :=
  leBytes 8 p.a.toNat ++ leBytes 8 p.e.toNat ++ leBytes 8 p.i.toNat ++ leBytes 8 p.o.toNat ++
    leBytes 8 p.u.toNat

theorem Plane.bytes_length (p : Plane) : p.bytes.length = 40 := by
  simp [Plane.bytes]

theorem storePlane_append {front rest : Bytes} {i : Nat} (hfront : front.length = 8 * i)
    (p : Plane) :
    storePlane (front ++ rest) i p = (front ++ p.bytes) ++ rest.drop 40 := by
  have hlength : ∀ {f : Bytes} {j : Nat} (w : Word64), f.length = 8 * j →
      (f ++ leBytes 8 w.toNat).length = 8 * (j + 1) := by
    intro f j w hf
    rw [List.length_append, leBytes_length, hf, Nat.mul_succ]
  have h1 := hlength p.a hfront
  have h2 := hlength p.e h1
  have h3 := hlength p.i h2
  have h4 := hlength p.o h3
  rw [storePlane, storeWord_append hfront, storeWord_append h1, storeWord_append h2,
    storeWord_append h3, storeWord_append h4]
  simp only [List.drop_drop, Plane.bytes, List.append_assoc]

theorem copyToState_eq {s : Bytes} (hs : s.length = 200) (l : Lanes) :
    copyToState s l = toBytes l.toState := by
  have hlength : ∀ {f : Bytes} {i : Nat} (p : Plane), f.length = 8 * i →
      (f ++ p.bytes).length = 8 * (i + 5) := by
    intro f i p hf
    rw [List.length_append, Plane.bytes_length, hf, Nat.mul_add]
  have h0 : ([] : Bytes).length = 8 * 0 := rfl
  have h5 := hlength l.b h0
  have h10 := hlength l.g h5
  have h15 := hlength l.k h10
  have h20 := hlength l.m h15
  have hplanes : copyToState ([] ++ s) l =
      [] ++ l.b.bytes ++ l.g.bytes ++ l.k.bytes ++ l.m.bytes ++ l.s.bytes := by
    rw [copyToState, storePlane_append h0, storePlane_append h5, storePlane_append h10,
      storePlane_append h15, storePlane_append h20]
    simp only [List.drop_drop, hs, List.drop_eq_nil_of_le, le_refl, List.append_nil]
  rw [List.nil_append] at hplanes
  rw [hplanes]
  simp only [Plane.bytes, List.nil_append, List.append_assoc]
  rfl

/-- **The unrolled permutation.** -/
theorem keccakF1600_eq {s : Bytes} (hs : s.length = 200) : keccakF1600 s = permute s := by
  rw [keccakF1600, copyToState_eq hs, Lanes.loop_eq, copyFromState_eq, permute]

/-! ## `xorbuf` -/

theorem leBytes_xor (n a b : Nat) : leBytes n (a ^^^ b) = xorBytes (leBytes n a) (leBytes n b) := by
  induction n generalizing a b with
  | zero => rfl
  | succ n ih =>
    have hdiv : (a ^^^ b) / 256 = a / 256 ^^^ b / 256 := Nat.xor_div_two_pow (n := 8)
    have hbyte : UInt8.ofNat (a ^^^ b) = UInt8.ofNat a ^^^ UInt8.ofNat b := UInt8.ofNat_xor ..
    rw [leBytes, leBytes, leBytes, xorBytes, hdiv, ih, hbyte]

theorem leBytes_leNat (s : Bytes) : leBytes s.length (leNat s) = s := by
  apply leNat_injective (leBytes_length _ _)
  rw [leNat_leBytes, Nat.mod_eq_of_lt (leNat_lt s)]

theorem leBytes_loadWord {p : Bytes} {i : Nat} (hp : 8 * i + 8 ≤ p.length) :
    leBytes 8 (loadWord p i).toNat = (p.drop (8 * i)).take 8 := by
  have hlength : ((p.drop (8 * i)).take 8).length = 8 := by
    rw [List.length_take, List.length_drop]
    omega
  have hlt : leNat ((p.drop (8 * i)).take 8) < 2 ^ 64 := by
    have hlt := leNat_lt ((p.drop (8 * i)).take 8)
    rwa [hlength] at hlt
  rw [loadWord, BitVec.toNat_ofNat, Nat.mod_eq_of_lt hlt]
  nth_rewrite 1 [← hlength]
  exact leBytes_leNat _

/-- One step of the loop over words. -/
theorem xorBytes_word {buf mask : Bytes} {i : Nat} (hbuf : 8 * i + 8 ≤ buf.length)
    (hmask : 8 * i + 8 ≤ mask.length) :
    storeWord (xorBytes buf (mask.take (8 * i))) i
        (loadWord (xorBytes buf (mask.take (8 * i))) i ^^^ loadWord mask i) =
      xorBytes buf (mask.take (8 * (i + 1))) := by
  have hm : (mask.take (8 * i)).length = 8 * i := by
    rw [List.length_take]
    omega
  have hb : (buf.take (8 * i)).length = (mask.take (8 * i)).length := by
    rw [hm, List.length_take]
    omega
  have hword : (mask.drop (8 * i)).take 8 ++ [] = (mask.drop (8 * i)).take 8 := List.append_nil _
  have hwlength : ((buf.drop (8 * i)).take 8).length = ((mask.drop (8 * i)).take 8).length := by
    rw [List.length_take, List.length_take, List.length_drop, List.length_drop]
    omega
  -- what was added so far does not reach the word
  have hcur : xorBytes buf (mask.take (8 * i)) =
      xorBytes (buf.take (8 * i)) (mask.take (8 * i)) ++ buf.drop (8 * i) := by
    have happ := xorBytes_append (buf.drop (8 * i)) [] hb
    rwa [List.take_append_drop, List.append_nil, xorBytes_nil] at happ
  have hfront : (xorBytes (buf.take (8 * i)) (mask.take (8 * i))).length = 8 * i := by
    rw [xorBytes_length, hb, hm]
  have hnew : mask.take (8 * (i + 1)) = mask.take (8 * i) ++ (mask.drop (8 * i)).take 8 := by
    rw [Nat.mul_add, List.take_add]
  have hbytes :
      leBytes 8 (loadWord (xorBytes buf (mask.take (8 * i))) i ^^^ loadWord mask i).toNat =
      xorBytes ((buf.drop (8 * i)).take 8) ((mask.drop (8 * i)).take 8) := by
    rw [BitVec.toNat_xor, leBytes_xor, leBytes_loadWord hmask,
      leBytes_loadWord (by rwa [xorBytes_length]), hcur, List.drop_left' hfront]
  have hsplit : xorBytes (buf.drop (8 * i)) ((mask.drop (8 * i)).take 8) =
      xorBytes ((buf.drop (8 * i)).take 8) ((mask.drop (8 * i)).take 8) ++
        (buf.drop (8 * i)).drop 8 := by
    have happ := xorBytes_append ((buf.drop (8 * i)).drop 8) [] hwlength
    rwa [List.take_append_drop, List.append_nil, xorBytes_nil] at happ
  calc storeWord (xorBytes buf (mask.take (8 * i))) i
        (loadWord (xorBytes buf (mask.take (8 * i))) i ^^^ loadWord mask i)
      = xorBytes (buf.take (8 * i)) (mask.take (8 * i)) ++
          xorBytes (buf.drop (8 * i)) ((mask.drop (8 * i)).take 8) := by
        nth_rewrite 1 [hcur]
        rw [storeWord_append hfront, hbytes, hsplit, List.append_assoc]
    _ = xorBytes (buf.take (8 * i) ++ buf.drop (8 * i))
          (mask.take (8 * i) ++ (mask.drop (8 * i)).take 8) := (xorBytes_append _ _ hb).symm
    _ = xorBytes buf (mask.take (8 * (i + 1))) := by rw [List.take_append_drop, hnew]

/-- One step of the loop over bytes. -/
theorem xorBytes_byte : ∀ (buf : Bytes) {mask : Bytes} {j : Nat}, j < mask.length →
    (xorBytes buf (mask.take j)).modify j (· ^^^ mask.getD j 0) = xorBytes buf (mask.take (j + 1))
  | [], _, _, _ => by rw [xorBytes, xorBytes, List.modify_nil]
  | _ :: _, _ :: _, 0, _ => by
    rw [List.take_zero, xorBytes_nil, List.take_succ_cons, List.take_zero, xorBytes, xorBytes_nil]
    rfl
  | _ :: buf, _ :: mask, j + 1, hj => by
    have ih := xorBytes_byte buf (Nat.lt_of_succ_lt_succ hj)
    rw [List.take_succ_cons, List.take_succ_cons, xorBytes, xorBytes, List.modify_succ_cons,
      List.getD_cons_succ, ih]

theorem xorbuf_eq {buf mask : Bytes} {count : Nat} (hbuf : count ≤ buf.length)
    (hmask : count ≤ mask.length) : xorbuf buf mask count = xorBytes buf (mask.take count) := by
  have hwords : (List.range (count / 8)).foldl
      (fun buf i => storeWord buf i (loadWord buf i ^^^ loadWord mask i)) buf =
      xorBytes buf (mask.take (8 * (count / 8))) := by
    apply foldl_range_induction (P := fun i b => b = xorBytes buf (mask.take (8 * i)))
    · rw [Nat.mul_zero, List.take_zero, xorBytes_nil]
    · rintro i b hi rfl
      exact xorBytes_word (by omega) (by omega)
  have hbytes : (List.range (count - 8 * (count / 8))).foldl
      (fun b i => b.modify (8 * (count / 8) + i) (· ^^^ mask.getD (8 * (count / 8) + i) 0))
      (xorBytes buf (mask.take (8 * (count / 8)))) = xorBytes buf (mask.take count) := by
    have hcount : count = 8 * (count / 8) + (count - 8 * (count / 8)) := by omega
    nth_rewrite 6 [hcount]
    apply foldl_range_induction
      (P := fun i b => b = xorBytes buf (mask.take (8 * (count / 8) + i))) rfl
    rintro i b hi rfl
    exact xorBytes_byte buf (by omega)
  rw [xorbuf, hwords]
  split
  case isTrue hzero =>
    have hcount : 8 * (count / 8) = count := by omega
    rw [hcount]
  case isFalse => exact hbytes

/-! ## Messages -/

namespace Sha3

/-- The state after some bytes, in whatever pieces they came. -/
def after (message : Bytes) : Sha3 :=
  let st := message.foldl (absorbByte permute 136) (List.replicate 200 0, 0)
  ⟨st.1, st.2⟩

theorem after_counter (message : Bytes) : (after message).counter = message.length % 136 :=
  foldl_absorbByte_snd (by decide) _ message

theorem after_state_length (message : Bytes) : (after message).state.length = 200 :=
  foldl_absorbByte_length permute_length List.length_replicate message

theorem xorInput_eq {c : Sha3} {input : Bytes} {count : Nat}
    (hstate : c.counter + count ≤ c.state.length) (hcount : count ≤ input.length) :
    c.xorInput input count =
      c.state.take c.counter ++ xorBytes (c.state.drop c.counter) (input.take count) := by
  rw [xorInput, xorbuf_eq (by rw [List.length_drop]; omega) hcount]

theorem xorInput_length {c : Sha3} {input : Bytes} {count : Nat} (hc : c.state.length = 200)
    (hstate : c.counter + count ≤ c.state.length) (hcount : count ≤ input.length) :
    (c.xorInput input count).length = 200 := by
  rw [xorInput_eq hstate hcount, List.length_append, xorBytes_length, ← List.length_append,
    List.take_append_drop, hc]

/-- The loop absorbs the input byte by byte and returns. -/
theorem updateLoop_eq {fuel : Nat} {c : Sha3} {input : Bytes} (hc : c.state.length = 200)
    (hcounter : c.counter < 136) (hfuel : input.length < fuel) :
    updateLoop fuel c input = some
      ⟨(input.foldl (absorbByte permute 136) (c.state, c.counter)).1,
        (input.foldl (absorbByte permute 136) (c.state, c.counter)).2⟩ := by
  induction fuel generalizing c input with
  | zero => exact absurd hfuel (Nat.not_lt_zero _)
  | succ fuel ih =>
    rw [updateLoop]
    split
    case isTrue hfull =>
      have hroom : c.counter + (136 - c.counter) ≤ c.state.length := by omega
      have hchunk : (input.take (136 - c.counter)).length = 136 - c.counter := by
        rw [List.length_take, Nat.min_eq_left hfull]
      have hblock : (input.take (136 - c.counter)).foldl (absorbByte permute 136)
          (c.state, c.counter) = (keccakF1600 (c.xorInput input (136 - c.counter)), 0) := by
        rw [foldl_absorbByte hcounter (by omega) (by omega), if_pos (by omega),
          keccakF1600_eq (xorInput_length hc hroom hfull), xorInput_eq hroom hfull]
      have hlength : (keccakF1600 (c.xorInput input (136 - c.counter))).length = 200 := by
        rw [keccakF1600_eq (xorInput_length hc hroom hfull), permute_length]
      have hrest : (input.drop (136 - c.counter)).length < fuel := by
        rw [List.length_drop]
        omega
      have hsplit : input.foldl (absorbByte permute 136) (c.state, c.counter) =
          (input.drop (136 - c.counter)).foldl (absorbByte permute 136)
            (keccakF1600 (c.xorInput input (136 - c.counter)), 0) := by
        rw [← hblock, ← List.foldl_append, List.take_append_drop]
      rw [hsplit]
      exact ih (c := ⟨keccakF1600 (c.xorInput input (136 - c.counter)), 0⟩) hlength
        (Nat.succ_pos 135) hrest
    case isFalse hshort =>
      rw [foldl_absorbByte hcounter (by omega) (by omega), if_neg (by omega),
        xorInput_eq (by omega) (le_refl _), List.take_length]

/-- **One call of `sha3_update`.** -/
theorem update_after (message input : Bytes) :
    (after message).update input = some (after (message ++ input)) := by
  have hcounter : (after message).counter < 136 := by
    rw [after_counter]
    exact Nat.mod_lt _ (by decide)
  rw [update, updateLoop_eq (after_state_length message) hcounter (Nat.lt_succ_self _)]
  simp only [after, List.foldl_append]

/-- **One call of `sha3_final`.** -/
theorem final_after (message : Bytes) {size : Nat} (hsize : size ≤ 136) :
    (after message).final size = (restart, digest 136 size message) := by
  have hlength := after_state_length message
  have hpadded : (sponge permute 136 200 message) = keccakF1600
      (((after message).state.modify (after message).counter (· ^^^ 1)).modify 135
        (· ^^^ 0x80)) := by
    have hsponge := sponge_eq_foldl (f := permute) (by decide : 0 < 136) (by decide : 136 ≤ 200)
      permute_length message
    have hpair : message.foldl (absorbByte permute 136) (List.replicate 200 0, 0) =
        ((after message).state, message.length % 136) := by
      rw [← after_counter]
      rfl
    have hlast : 136 - 1 = 135 := rfl
    rw [pad, List.foldl_append, hpair, foldl_padding (by decide) (by omega), hlast,
      Prod.mk.injEq] at hsponge
    rw [keccakF1600_eq (by rw [List.length_modify, List.length_modify, hlength]), after_counter,
      hsponge.1]
  have hout : (sponge permute 136 200 message).length = 200 := by
    rw [hpadded, keccakF1600_eq (by rw [List.length_modify, List.length_modify, hlength]),
      permute_length]
  rw [final, digest, output_of_le hsize (by omega), hpadded]

/-- The bytes since the last `sha3_final`. -/
def pending : Bytes → List Call → Bytes
  | message, [] => message
  | message, .update input :: calls => pending (message ++ input) calls
  | _, .final _ :: calls => pending [] calls

/-- The hashes that the calls are to write. -/
def hashes : Bytes → List Call → List Bytes
  | _, [] => []
  | message, .update input :: calls => hashes (message ++ input) calls
  | message, .final size :: calls => digest 136 size message :: hashes [] calls

theorem run_after {calls : List Call} (hsize : ∀ size, Call.final size ∈ calls → size ≤ 136)
    (message : Bytes) :
    (after message).run calls = some (after (pending message calls), hashes message calls) := by
  induction calls generalizing message with
  | nil => rfl
  | cons call calls ih =>
    have htail := ih fun size hmem => hsize size (List.mem_cons_of_mem _ hmem)
    cases call with
    | update input =>
      rw [run, update_after]
      exact htail _
    | final size =>
      have hstart : restart = after [] := rfl
      rw [run, final_after message (hsize size List.mem_cons_self), hstart]
      dsimp only
      rw [htail]
      rfl

/-- **Keccak with rate 136.** The permutation is Keccak-f[1600]. From the restarted state, any
calls return, and they write the digests of the messages that the calls of `sha3_final` end.
`m_counter` stays below 136. The state depends only on the bytes since the last
`sha3_final`; right after it, it is the restarted one. -/
theorem run_eq_digests {calls : List Call} (hsize : ∀ size, Call.final size ∈ calls → size ≤ 136) :
    (∀ a : State, keccakF1600 (toBytes a) = toBytes (keccakF a)) ∧
    restart.run calls = some (after (pending [] calls), hashes [] calls) ∧
    (after (pending [] calls)).counter < 136 ∧ after [] = restart := by
  refine ⟨?_, run_after hsize [], ?_, rfl⟩
  · intro a
    rw [keccakF1600_eq (toBytes_length a), permute, ofBytes_toBytes]
  · rw [after_counter]
    exact Nat.mod_lt _ (by decide)

/-- Two hashes, the first of a message in two pieces. -/
def twoHashes : List Call := [.update [1, 2], .update [3], .final 32, .update [4], .final 20]

theorem run_eq_digests_twoHashes :
    restart.run twoHashes = some (restart, [digest 136 32 [1, 2, 3], digest 136 20 [4]]) := by
  have hsize : ∀ size, Call.final size ∈ twoHashes → size ≤ 136 := by
    intro size hmem
    simp only [twoHashes, List.mem_cons, Call.final.injEq, reduceCtorEq, List.not_mem_nil,
      false_or, or_false] at hmem
    omega
  exact (run_eq_digests hsize).2.1

end Sha3

end Lpad
