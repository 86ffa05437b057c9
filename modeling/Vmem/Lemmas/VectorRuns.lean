import Vmem.Lemmas.VMMVector

/-!
# Vectors that are run

A driver that gives ranges and handles in order (`VectorAux.respond`); the operations of a vector can be run against it, and what they reach
is reached.
-/

namespace Vmem

/-- An operation, run against a driver with at most one answer to each call. -/
def Vec.exec {T : ElemType} (f : (i : VecCall) → Cuda Memory → Option (i.Answer × Cuda Memory)) (x : Vec T) (o : VecOp T) : Option (Vec T) :=
  ((o.program.run x.v).exec f x.d).map fun y =>
    ⟨y.1.2, y.2, match y.1.1 with | .ok _ => o.plain x.xs | .error _ => x.xs⟩

instance {T : ElemType} (v : VMMVector) : Decidable (VMMVector.Declared T v) :=
  inferInstanceAs (Decidable (v.maxCapacity.toNat * T.sizeof.toNat < 2 ^ 64))

instance {T : ElemType} (v : VMMVector) (value : T.Value) : Decidable (v.Fits (.pushBack value)) :=
  inferInstanceAs (Decidable (v.size = v.capacity → v.doubled + v.chunkFits.toNat ≤ 2 ^ 64 ∧
    (v.size = v.maxCapacity ∨ v.doubled ≤ v.maxCapacity.toNat)))

/-- The elements are pushed one by one, as long as the vector can grow. -/
def Vec.pushAll {T : ElemType} (f : (i : VecCall) → Cuda Memory → Option (i.Answer × Cuda Memory)) : Vec T → List T.Value → Option (Vec T)
  | x, [] => some x
  | x, value :: values => if x.v.Fits (.pushBack value) then (x.exec f (.pushBack value)).bind fun y => y.pushAll f values else none

namespace VectorAux

variable {T : ElemType} {made : VMMVector → Prop} {x y : Vec T} {f : (i : VecCall) → Cuda Memory → Option (i.Answer × Cuda Memory)}

/-- Pushes that are run are a run. -/
theorem reached_pushAll (hf : ∀ i d r d', f i d = some (r, d') → Cuda.checked.answers i d r d') {values : List T.Value}
    (hx : x.Reached made VMMVector.Fits) (hy : x.pushAll f values = some y) : y.Reached made VMMVector.Fits := by
  induction values generalizing x with
  | nil =>
    cases hy
    exact hx
  | cons value values ih =>
    unfold Vec.pushAll at hy
    split at hy
    · next hfits =>
      obtain ⟨z, hz, hy⟩ := Option.bind_eq_some_iff.1 hy
      obtain ⟨⟨⟨r, v⟩, d⟩, hrun, rfl⟩ := Option.map_eq_some_iff.1 hz
      have hz := hx.op (o := .pushBack value) trivial hfits (Prog.runs_of_exec hf hrun)
      cases r with
      | ok => exact ih hz hy
      | error => exact ih hz hy
    · cases hy

/-- The only range that this driver gives. -/
def firstRange : Ptr := 0x10000

/-- A driver with a granularity of eight bytes and one range, which counts its handles. -/
def respond : (i : VecCall) → Cuda Memory → Option (i.Answer × Cuda Memory)
  | .cu (.granularity _), d => some (8, d)
  | .cu (.reserve size align), d =>
    if size ≠ 0 ∧ firstRange.toNat + size.toNat < 2 ^ 64 ∧ d.reservations.toList = [] then
      some (firstRange, d.after (.reserve size align) firstRange fun _ => 0)
    else none
  | .cu (.create size p), d =>
    if size ≠ 0 ∧ d.handles[BitVec.ofNat 64 d.handles.size]? = none then
      some (BitVec.ofNat 64 d.handles.size, d.after (.create size p) (BitVec.ofNat 64 d.handles.size) fun _ => 0)
    else none
  | .cu (.map va size h), d =>
    if (d.handles[h]?.map Phys.size = some size) ∧ firstRange.toNat ≤ va.toNat ∧
        va.toNat + size.toNat ≤ firstRange.toNat + (d.reservations[firstRange]?.getD 0).toNat ∧
        d.mappings.toList.all (fun e => decide (Apart va size e.1 e.2.size)) then
      some (0, d.after (.map va size h) 0 fun _ => 0)
    else none
  | .setAccess va size _, d => if d.mappings[va]?.map Mapping.size = some size then some ((), d.after (.setAccess va size 0) 0 0) else none
  | .memcpyHtoD dst src, d => if (d.bytes? dst src.length).isSome then some ((), d.setBytes dst src) else none
  | _, _ => none

/-- Its answers are those of a driver. -/
theorem answers_of_respond (i : VecCall) (d : Cuda Memory) (r : i.Answer) (d' : Cuda Memory) (hr : respond i d = some (r, d')) :
    Cuda.checked.answers i d r d' := by
  unfold respond at hr
  split at hr
  · cases hr
    exact ⟨trivial, trivial, fun _ => 0, rfl⟩
  · split at hr
    · next hfree =>
      cases hr
      obtain ⟨hsize, hend, hnone⟩ := hfree
      refine ⟨hsize, ⟨⟨hsize, by decide, hend.le, fun va s hs => ?_⟩, hend⟩, fun _ => 0, rfl⟩
      have hmem := Std.ExtTreeMap.mem_toList_iff_getElem?_eq_some.2 hs
      rw [hnone] at hmem
      cases hmem
    · cases hr
  · split at hr
    · next hnew =>
      cases hr
      exact ⟨hnew.1, hnew.2, fun _ => 0, rfl⟩
    · cases hr
  · split at hr
    · next va size h hroom =>
      cases hr
      obtain ⟨hsize, hlow, hend, happ⟩ := hroom
      refine ⟨⟨Option.map_eq_some_iff.1 hsize, fun a hlo hhi => ?_, fun va' m hm => ?_⟩, trivial, fun _ => 0, rfl⟩
      · cases hres : d.reservations[firstRange]? with
        | none =>
          have hzero : (d.reservations[firstRange]?.getD 0).toNat = 0 := by rw [hres]; rfl
          omega
        | some len =>
          rw [hres, Option.getD_some] at hend
          exact ⟨firstRange, len, hres, by omega, by omega⟩
      · exact of_decide_eq_true (List.all_eq_true.1 happ (va', m) (Std.ExtTreeMap.mem_toList_iff_getElem?_eq_some.2 hm))
    · cases hr
  · split at hr
    · next hm =>
      cases hr
      exact ⟨Option.map_eq_some_iff.1 hm, rfl⟩
    · cases hr
  · split at hr
    · next hbytes =>
      cases hr
      exact ⟨hbytes, rfl⟩
    · cases hr
  · cases hr

end VectorAux

end Vmem
