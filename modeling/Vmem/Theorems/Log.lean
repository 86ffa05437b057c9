import Vmem.Lemmas.Log

/-!
# Stable logs

A stable log does not depend on the addresses and on the numbers of free memory of a run: it only shows which addresses are the same.
-/

namespace Vmem

namespace LogAux

open LogFile

/-- The addresses of marked texts are addresses. -/
theorem isAddr_of_marks {texts : List Text} {logs : List (List Piece)} (h : List.Forall₂ Marks texts logs) :
    ∀ t ∈ logs.flatten.flatMap Piece.addrs, IsAddr t := by
  intro t ht
  obtain ⟨p, hp, htp⟩ := List.mem_flatMap.1 ht
  obtain ⟨ps, hps, hp⟩ := List.mem_flatten.1 hp
  obtain ⟨i, hi, rfl⟩ := List.getElem_of_mem hps
  have hm : Marks _ _ := h.get (h.length_eq ▸ hi) hi
  cases p with
  | other c => cases htp
  | vram n => cases htp
  | addr u =>
    cases List.mem_singleton.1 htp
    exact (sits_of_marks hm).formed t hp

/-- Marked texts are their pieces, which sit in them. -/
theorem texts_of_marks {texts : List Text} {logs : List (List Piece)} (h : List.Forall₂ Marks texts logs) :
    texts = logs.map (fun ps => ps.flatMap Piece.text) ∧ ∀ ps ∈ logs, Sits ps := by
  induction h with
  | nil => exact ⟨rfl, nofun⟩
  | cons hm _ ih =>
    obtain ⟨htexts, hsits⟩ := ih
    refine ⟨by rw [List.map_cons, ← htexts, ← hm.text], fun ps hps => ?_⟩
    rcases List.mem_cons.1 hps with rfl | hps
    · exact sits_of_marks hm
    · exact hsits ps hps

/-- Renamed pieces sit in their text. -/
theorem sits_of_renamed {φ : Text → Text} (hφ : ∀ t, IsAddr t → IsAddr (φ t)) {logs logs' : List (List Piece)}
    (h : List.Forall₂ (List.Forall₂ (Renamed φ)) logs logs') : (∀ ps ∈ logs, Sits ps) → ∀ ps ∈ logs', Sits ps := by
  induction h with
  | nil => exact fun h => h
  | cons hr _ ih =>
    intro hs ps hps
    rcases List.mem_cons.1 hps with rfl | hps
    · exact (renamed_sits hφ hr (hs _ List.mem_cons_self)).1
    · exact ih (fun ps hps => hs ps (List.mem_cons_of_mem _ hps)) ps hps

/-- Renamed texts are shown the same. -/
theorem map_shown_renamed {φ : Text → Text} {log : List Text} (hinj : ∀ t ∈ log, ∀ u ∈ log, φ t = φ u → t = u)
    {logs logs' : List (List Piece)} (h : List.Forall₂ (List.Forall₂ (Renamed φ)) logs logs') :
    (∀ t ∈ logs.flatten.flatMap Piece.addrs, t ∈ log) →
    logs'.map (fun ps => ps.flatMap (Piece.shown (log.map φ))) = logs.map fun ps => ps.flatMap (Piece.shown log) := by
  induction h with
  | nil => exact fun _ => rfl
  | cons hr _ ih =>
    intro hlog
    rw [List.flatten_cons, List.flatMap_append] at hlog
    rw [List.map_cons, List.map_cons, shown_renamed hinj hr fun t ht => hlog t (List.mem_append_left _ ht),
      ih fun t ht => hlog t (List.mem_append_right _ ht)]

/-- Texts are renamed one after the other. -/
theorem flatten_renamed {φ : Text → Text} {logs logs' : List (List Piece)} (h : List.Forall₂ (List.Forall₂ (Renamed φ)) logs logs') :
    List.Forall₂ (Renamed φ) logs.flatten logs'.flatten := by
  induction h with
  | nil => exact .nil
  | cons hr _ ih => exact List.rel_append hr ih

end LogAux

open LogFile LogAux in
/-- Texts whose addresses and numbers of free memory are these pieces. A stable log shows each text piece by piece: an address as its place
among the addresses of the log in the order in which they first appear, a number of free memory as `-`, and every other character as it is.
Two addresses are shown the same exactly when they are the same. And when the addresses are renamed by a map that is injective on addresses,
and the numbers are any others, the log stays the same. -/
theorem stable_log (texts : List Text) (logs : List (List Piece)) (hmarks : List.Forall₂ Marks texts logs) (addrs : List Text)
    (haddrs : addrs = logs.flatten.flatMap Piece.addrs) :
    (puts texts { stable := true }).1 = logs.map (fun ps => ps.flatMap (Piece.shown addrs)) ∧
    (puts texts { stable := true }).2.f = (puts texts { stable := true }).1.flatten ∧
    (∀ t ∈ addrs, ∀ u ∈ addrs, Piece.shown addrs (.addr t) = Piece.shown addrs (.addr u) ↔ t = u) ∧
    ∀ (φ : Text → Text) (logs' : List (List Piece)), (∀ t, IsAddr t → IsAddr (φ t)) →
      (∀ t u, IsAddr t → IsAddr u → φ t = φ u → t = u) → List.Forall₂ (List.Forall₂ (Renamed φ)) logs logs' →
      (puts (logs'.map fun ps => ps.flatMap Piece.text) { stable := true }).1 = (puts texts { stable := true }).1 ∧
      (puts (logs'.map fun ps => ps.flatMap Piece.text) { stable := true }).2.f = (puts texts { stable := true }).2.f := by
  subst haddrs
  obtain ⟨htexts, hsits⟩ := texts_of_marks hmarks
  have hlog : (puts texts { stable := true }).1 = logs.map fun ps => ps.flatMap (Piece.shown (logs.flatten.flatMap Piece.addrs)) := by
    have hputs := puts_pieces logs (l := { stable := true }) [] hsits rfl numbered_empty
    rw [List.nil_append, List.append_nil] at hputs
    rw [htexts]
    exact hputs
  refine ⟨hlog, puts_file texts _, fun t ht u hu => ⟨fun h => ?_, fun h => by rw [h]⟩, fun φ logs' hφ hinj hr => ?_⟩
  · have hk := Nat.succ_injective (vaName_inj h)
    exact (List.idxOf_inj (List.mem_eraseDups.2 ht)).1 hk
  · have hputs := puts_pieces logs' (l := { stable := true }) [] (sits_of_renamed hφ hr hsits) rfl numbered_empty
    rw [List.nil_append, List.append_nil, addrs_renamed (flatten_renamed hr)] at hputs
    have hon : ∀ t ∈ logs.flatten.flatMap Piece.addrs, ∀ u ∈ logs.flatten.flatMap Piece.addrs, φ t = φ u → t = u :=
      fun t ht u hu => hinj t u (isAddr_of_marks hmarks t ht) (isAddr_of_marks hmarks u hu)
    have hsame := hputs.trans ((map_shown_renamed hon hr fun t ht => ht).trans hlog.symm)
    refine ⟨hsame, ?_⟩
    rw [puts_file, puts_file, hsame]

/-- Text of a line that a log shows as it is. -/
def LogAux.plain (t : Text) : List Piece := t.map .other

/-- Two lines of a run with the addresses `t` and `u` and the number `n`. -/
def LogAux.mapLines (t u n : Text) : List (List Piece) :=
  [plain "map ".toList ++ .addr t :: plain " at ".toList ++ .addr u :: plain ['\n'],
    .vram n :: plain " MiB, unmap ".toList ++ .addr t :: plain ['\n']]

/-- Two lines of a run with two addresses, and the same lines of another run. -/
theorem stable_log_two :
    let texts := ["map 0x7f00000 at 0x7f20000\n".toList, "VRAM free 12 MiB, unmap 0x7f00000\n".toList]
    let logs := LogAux.mapLines "0x7f00000".toList "0x7f20000".toList "12".toList
    let logs' := LogAux.mapLines "0x7f000000".toList "0x7f200000".toList "9".toList
    List.Forall₂ Marks texts logs ∧ (LogFile.puts (logs'.map fun ps => ps.flatMap Piece.text) { stable := true }).2.f =
      (LogFile.puts texts { stable := true }).2.f := by
  intro texts logs logs'
  have hmarks : List.Forall₂ Marks texts logs := .cons ⟨by decide, by decide, by decide⟩ (.cons ⟨by decide, by decide, by decide⟩ .nil)
  have hplain (t : Text) : List.Forall₂ (Renamed (· ++ ['0'])) (LogAux.plain t) (LogAux.plain t) := List.forall₂_same.2 fun p hp => by
    obtain ⟨c, -, rfl⟩ := List.mem_map.1 hp
    exact .other c
  have hr : List.Forall₂ (List.Forall₂ (Renamed (· ++ ['0']))) logs logs' := by
    refine .cons ?_ (.cons ?_ .nil)
    · exact List.rel_append (List.rel_append (hplain _) (.cons (.addr _) (hplain _))) (.cons (.addr _) (hplain _))
    · refine List.rel_append (.cons ?_ (hplain _)) (.cons (.addr _) (hplain _))
      exact .vram _ nofun (List.all_eq_true.1 (by decide))
  refine ⟨hmarks, ((stable_log texts logs hmarks _ rfl).2.2.2 (· ++ ['0']) logs' ?_ ?_ hr).2⟩
  · intro t ht
    obtain ⟨hs, rfl, hlen, hhex⟩ := ht
    refine ⟨hs ++ ['0'], List.append_assoc .., ?_, List.forall_mem_append.2 ⟨hhex, List.forall_mem_singleton.2 (by decide)⟩⟩
    rw [List.length_append]
    exact Nat.le_add_right_of_le hlen
  · exact fun t u _ _ h => List.append_cancel_right h

end Vmem
