import Vmem.Log
import Vmem.Lib.Spans

/-!
# Searches in a marked text

Whether something is found at a character depends only on what follows up to the next address or number, and of that only on its first
characters (`lead`). So the pieces of a text stay its pieces when addresses are renamed and numbers change (`Sits`), and also when the
numbers are taken out.
-/

namespace Vmem

namespace LogAux

open Regex LogFile

/-! ## What follows a character -/

/-- What a search that starts before these pieces can see of them. -/
def lead : List Piece → Text
  | [] => []
  | .other c :: ps => c :: lead ps
  | .addr _ :: _ => ['0', 'x']
  | .vram _ :: _ => ['V']

/-- The text of a piece, with anything for a number of free memory. -/
structure View (f : Piece → Text) : Prop where
  other : ∀ c, f (.other c) = [c]
  addr : ∀ t, f (.addr t) = t
  vram : ∀ n, ∃ r, f (.vram n) = 'V' :: r

/-- The addresses among the pieces are addresses. -/
def Formed (ps : List Piece) : Prop := ∀ t, Piece.addr t ∈ ps → IsAddr t

/-- A text in a stable log before the addresses are replaced. -/
def masked : Piece → Text
  | .vram _ => "VRAM free -".toList
  | p => p.text

/-- The text of a piece shows it. -/
theorem view_text : View Piece.text := ⟨fun _ => rfl, fun _ => rfl, fun _ => ⟨_, rfl⟩⟩

theorem view_masked : View masked := ⟨fun _ => rfl, fun _ => rfl, fun _ => ⟨_, rfl⟩⟩

variable {f : Piece → Text} {ps : List Piece}

/-- Pieces behind a well-formed one are well formed. -/
theorem formed_cons {p : Piece} (h : Formed (p :: ps)) : Formed ps := fun t ht => h t (List.mem_cons_of_mem _ ht)

/-- The class of characters of a number ends at the next address or number of free memory. -/
theorem takeWhile_lead (hf : View f) {p : Char → Bool} (hx : p 'x' = false) (hV : p 'V' = false) (h : Formed ps) :
    (ps.flatMap f).takeWhile p = (lead ps).takeWhile p := by
  induction ps with
  | nil => rfl
  | cons q ps ih =>
    cases q with
    | other c =>
      rw [List.flatMap_cons, hf.other]
      show (c :: ps.flatMap f).takeWhile p = (c :: lead ps).takeWhile p
      rw [List.takeWhile_cons, List.takeWhile_cons, ih (formed_cons h)]
    | addr t =>
      obtain ⟨hs, rfl, -⟩ := h t List.mem_cons_self
      rw [List.flatMap_cons, hf.addr]
      show ('0' :: 'x' :: (hs ++ ps.flatMap f)).takeWhile p = ['0', 'x'].takeWhile p
      rw [List.takeWhile_cons, List.takeWhile_cons, List.takeWhile_cons, List.takeWhile_cons, hx]
      rfl
    | vram n =>
      obtain ⟨r, hr⟩ := hf.vram n
      rw [List.flatMap_cons, hr]
      show ('V' :: (r ++ ps.flatMap f)).takeWhile p = ['V'].takeWhile p
      rw [List.takeWhile_cons, List.takeWhile_cons, hV]
      rfl

/-- A literal that neither an address nor a number of free memory can start is in the characters. -/
theorem literal_text (hf : View f) (l : Text) : (∀ c ∈ l, c ≠ '0' ∧ c ≠ 'V') → ∀ {ps : List Piece}, Formed ps → ∀ {r : Text},
    ps.flatMap f = l ++ r → ∃ ps', ps = l.map .other ++ ps' ∧ r = ps'.flatMap f := by
  induction l with
  | nil => exact fun _ ps _ r h => ⟨ps, rfl, h.symm⟩
  | cons c cs ih =>
    intro hl ps h r heq
    obtain ⟨h0, hV⟩ := hl c List.mem_cons_self
    cases ps with
    | nil => cases heq
    | cons q ps =>
      cases q with
      | other d =>
        rw [List.flatMap_cons, hf.other] at heq
        obtain ⟨rfl, htail⟩ := List.cons_eq_cons.1 heq
        obtain ⟨ps', rfl, hr⟩ := ih (fun x hx => hl x (List.mem_cons_of_mem _ hx)) (formed_cons h) htail
        exact ⟨ps', rfl, hr⟩
      | addr t =>
        obtain ⟨hs, rfl, -⟩ := h t List.mem_cons_self
        rw [List.flatMap_cons, hf.addr] at heq
        exact absurd (List.cons_eq_cons.1 heq).1.symm h0
      | vram n =>
        obtain ⟨r', hr'⟩ := hf.vram n
        rw [List.flatMap_cons, hr'] at heq
        exact absurd (List.cons_eq_cons.1 heq).1.symm hV

/-- Letters that start no match are pieces of their own. -/
theorem literal_lead (l : Text) : (∀ c ∈ l, c ≠ '0' ∧ c ≠ 'V') → ∀ {ps : List Piece} {r : Text}, lead ps = l ++ r →
    ∃ ps', ps = l.map .other ++ ps' ∧ r = lead ps' := by
  induction l with
  | nil => exact fun _ ps r h => ⟨ps, rfl, h.symm⟩
  | cons c cs ih =>
    intro hl ps r heq
    obtain ⟨h0, hV⟩ := hl c List.mem_cons_self
    cases ps with
    | nil => cases heq
    | cons q ps =>
      cases q with
      | other d =>
        obtain ⟨rfl, htail⟩ := List.cons_eq_cons.1 (show d :: lead ps = c :: (cs ++ r) from heq)
        obtain ⟨ps', rfl, hr⟩ := ih (fun x hx => hl x (List.mem_cons_of_mem _ hx)) htail
        exact ⟨ps', rfl, hr⟩
      | addr t => exact absurd (List.cons_eq_cons.1 heq).1.symm h0
      | vram n => exact absurd (List.cons_eq_cons.1 heq).1.symm hV

/-- They are shown as they are. -/
theorem flatMap_map_other (hf : View f) (l : Text) (ps : List Piece) : (l.map Piece.other ++ ps).flatMap f = l ++ ps.flatMap f := by
  induction l with
  | nil => rfl
  | cons c cs ih =>
    rw [List.map_cons, List.cons_append, List.flatMap_cons, hf.other, ih]
    rfl

/-- They lead the text as they are. -/
theorem lead_map_other (l : Text) (ps : List Piece) : lead (l.map Piece.other ++ ps) = l ++ lead ps := by
  induction l with
  | nil => rfl
  | cons c cs ih => exact congrArg (c :: ·) ih

/-- What is found at a character depends only on the lead of the pieces behind it. -/
theorem starts_iff (hf : View f) {p : Char → Bool} (hx : p 'x' = false) (hV : p 'V' = false) (h : Formed ps) {c d : Char} {l : Text} {n : Nat}
    (hl : ∀ c ∈ l, c ≠ '0' ∧ c ≠ 'V') : Starts (c :: l) n p (d :: ps.flatMap f) ↔ Starts (c :: l) n p (d :: lead ps) := by
  have hlead {ps' : List Piece} (h' : Formed ps') : (ps'.flatMap f).takeWhile p = (lead ps').takeWhile p := takeWhile_lead hf hx hV h'
  constructor
  · intro hs
    obtain ⟨r, heq, hlen⟩ := hs
    obtain ⟨rfl, htail⟩ := List.cons_eq_cons.1 heq
    obtain ⟨ps', rfl, rfl⟩ := literal_text hf l hl h htail
    rw [hlead fun t ht => h t (List.mem_append_right _ ht)] at hlen
    exact ⟨lead ps', by rw [lead_map_other]; rfl, hlen⟩
  · intro hs
    obtain ⟨r, heq, hlen⟩ := hs
    obtain ⟨rfl, htail⟩ := List.cons_eq_cons.1 heq
    obtain ⟨ps', rfl, rfl⟩ := literal_lead l hl htail
    rw [← hlead fun t ht => h t (List.mem_append_right _ ht)] at hlen
    exact ⟨ps'.flatMap f, by rw [flatMap_map_other hf]; rfl, hlen⟩

/-! ## The two searches -/

/-- An address starts here. -/
def AddrAt (s : Text) : Prop := Starts "0x".toList 6 isHex s

/-- A number of free memory starts here. -/
def VramAt (s : Text) : Prop := Starts "VRAM free ".toList 1 isDigit s

/-- Whether an address starts at a character is seen in what leads. -/
theorem addrAt_iff (hf : View f) (h : Formed ps) (c : Char) : AddrAt (c :: ps.flatMap f) ↔ AddrAt (c :: lead ps) :=
  starts_iff hf (by decide) (by decide) h (l := ['x']) (List.forall_mem_singleton.2 (by decide))

/-- So it is for a report of free memory. -/
theorem vramAt_iff (hf : View f) (h : Formed ps) (c : Char) : VramAt (c :: ps.flatMap f) ↔ VramAt (c :: lead ps) := by
  have hl : ∀ c ∈ "RAM free ".toList, c ≠ '0' ∧ c ≠ 'V' := by
    intro c hc
    have hall : "RAM free ".toList.all (fun c => c != '0' && c != 'V') = true := by decide
    have hc := List.all_eq_true.1 hall c hc
    rw [Bool.and_eq_true, bne_iff_ne, bne_iff_ne] at hc
    exact hc
  exact starts_iff hf (by decide) (by decide) h hl

/-- The search finds no address where none starts. -/
theorem first_addr_none {s : Text} (h : ¬AddrAt s) : addrRe.first s = none := by
  cases hf : addrRe.first s with
  | none => rfl
  | some hit =>
    obtain ⟨r, hr, hle, -⟩ := starts_of_first hf
    exact absurd ⟨r, hr, hle⟩ h

/-- Nor a report where none starts. -/
theorem first_vram_none {s : Text} (h : ¬VramAt s) : vramRe.first s = none := by
  cases hf : vramRe.first s with
  | none => rfl
  | some hit =>
    obtain ⟨r, hr, hle, -⟩ := starts_of_first hf
    exact absurd ⟨r, hr, hle⟩ h

/-- Nothing starts at a character that its literal does not start with. -/
theorem first_none_of_head {l : Text} {n : Nat} {p : Char → Bool} {x : Char} {a : Text} (hne : ∀ c : Char, a.head? = some c → c ≠ x) :
    (seq (lit (x :: l)) (atLeast n p)).first a = none := by
  cases hf : (seq (lit (x :: l)) (atLeast n p)).first a with
  | none => rfl
  | some hit =>
    obtain ⟨r, rfl, -⟩ := starts_of_first hf
    exact absurd rfl (hne x rfl)

/-- Characters that no match starts with are passed. -/
theorem scan_no_head {l : Text} {n : Nat} {p : Char → Bool} {x : Char} {a : Text} (s : Text) (hne : ∀ c ∈ a, c ≠ x) :
    (seq (lit (x :: l)) (atLeast n p)).scan 0 (a ++ s) = a.map .inl ++ (seq (lit (x :: l)) (atLeast n p)).scan 0 s := by
  refine scan_append fun b d hbd hd => first_none_of_head fun c hc => hne c ?_
  obtain ⟨y, ys, rfl⟩ := List.exists_cons_of_ne_nil hd
  cases hc
  rw [hbd]
  exact List.mem_append_right _ List.mem_cons_self

/-- A match of a literal with all of a class behind it. -/
theorem scan_whole {l : Text} {n : Nat} {p : Char → Bool} {x : Char} {a s : Text} (ha : ∀ c ∈ a, p c = true) (hn : n ≤ a.length)
    (hs : ∀ c : Char, s.head? = some c → p c = false) :
    (seq (lit (x :: l)) (atLeast n p)).scan 0 ((x :: l) ++ a ++ s) = .inr ((x :: l) ++ a) :: (seq (lit (x :: l)) (atLeast n p)).scan 0 s := by
  have htake := takeWhile_span ha hs
  have hfirst := first_starts (x :: l) n p (a ++ s) (by rw [htake]; exact hn)
  rw [← List.append_assoc] at hfirst
  exact scan_match hfirst (by rw [htake]) nofun

/-! ## Pieces that sit in their text -/

/-- Every address and every number of free memory is whole, and at no other character one starts. -/
def Sits : List Piece → Prop
  | [] => True
  | .other c :: ps => ¬AddrAt (c :: lead ps) ∧ ¬VramAt (c :: lead ps) ∧ Sits ps
  | .addr t :: ps => IsAddr t ∧ (∀ c : Char, (lead ps).head? = some c → isHex c = false) ∧ Sits ps
  | .vram n :: ps => (n ≠ [] ∧ ∀ c ∈ n, isDigit c = true) ∧ (∀ c : Char, (lead ps).head? = some c → isDigit c = false) ∧ Sits ps

/-- Pieces that sit in their text are well formed. -/
theorem Sits.formed : ∀ {ps : List Piece}, Sits ps → Formed ps
  | [], _ => nofun
  | .other _ :: _, h => fun t ht => Sits.formed h.2.2 t ((List.mem_cons.1 ht).resolve_left nofun)
  | .vram _ :: _, h => fun t ht => Sits.formed h.2.2 t ((List.mem_cons.1 ht).resolve_left nofun)
  | .addr _ :: _, h => fun t ht => (List.mem_cons.1 ht).elim (fun heq => by cases heq; exact h.1) (Sits.formed h.2.2 t)

/-- A view of pieces starts as its lead does. -/
theorem head_lead (hf : View f) (h : Formed ps) : (ps.flatMap f).head? = (lead ps).head? := by
  cases ps with
  | nil => rfl
  | cons q ps =>
    cases q with
    | other c =>
      rw [List.flatMap_cons, hf.other]
      rfl
    | addr t =>
      obtain ⟨hs, rfl, -⟩ := h t List.mem_cons_self
      rw [List.flatMap_cons, hf.addr]
      rfl
    | vram n =>
      obtain ⟨r, hr⟩ := hf.vram n
      rw [List.flatMap_cons, hr]
      rfl

/-- No report starts in a number. -/
theorem ne_of_isHex {c : Char} (h : isHex c = true) : c ≠ 'V' := by
  intro heq
  rw [heq] at h
  exact absurd h (by decide)

/-- In the text of pieces that sit, the first pass finds the numbers of free memory. -/
theorem scan_vrams : ∀ {ps : List Piece}, Sits ps → vramRe.scan 0 (ps.flatMap Piece.text) = ps.flatMap Piece.inVrams
  | [], _ => rfl
  | .other c :: ps, h => by
    have hno := first_vram_none (mt (vramAt_iff view_text h.2.2.formed c).1 h.2.1)
    rw [List.flatMap_cons, List.flatMap_cons, ← scan_vrams h.2.2]
    exact scan_cons hno
  | .addr t :: ps, h => by
    obtain ⟨hs, rfl, -, hhex⟩ := h.1
    have hne : ∀ c ∈ "0x".toList ++ hs, c ≠ 'V' := by
      refine List.forall_mem_append.2 ⟨?_, fun c hc => ne_of_isHex (hhex c hc)⟩
      exact List.forall_mem_cons.2 ⟨by decide, List.forall_mem_singleton.2 (by decide)⟩
    rw [List.flatMap_cons, List.flatMap_cons, ← scan_vrams h.2.2]
    exact scan_no_head _ hne
  | .vram n :: ps, h => by
    obtain ⟨⟨hne, hdigits⟩, hstop, hrest⟩ := h
    rw [List.flatMap_cons, List.flatMap_cons, ← scan_vrams hrest]
    rw [← head_lead view_text hrest.formed] at hstop
    exact scan_whole hdigits (List.length_pos_of_ne_nil hne) hstop

/-- Behind the first pass, the second finds the addresses. -/
theorem scan_masked : ∀ {ps : List Piece}, Sits ps → addrRe.scan 0 (ps.flatMap masked) = ps.flatMap fun p =>
    match p with
    | .addr t => [.inr t]
    | p => (masked p).map .inl
  | [], _ => rfl
  | .other c :: ps, h => by
    have hno := first_addr_none (mt (addrAt_iff view_masked h.2.2.formed c).1 h.1)
    rw [List.flatMap_cons, List.flatMap_cons, ← scan_masked h.2.2]
    exact scan_cons hno
  | .addr t :: ps, h => by
    obtain ⟨⟨hs, rfl, hlen, hhex⟩, hstop, hrest⟩ := h
    rw [List.flatMap_cons, List.flatMap_cons, ← scan_masked hrest]
    rw [← head_lead view_masked hrest.formed] at hstop
    exact scan_whole hhex hlen hstop
  | .vram n :: ps, h => by
    have hne : ∀ c ∈ "VRAM free -".toList, c ≠ '0' := by
      intro c hc
      exact bne_iff_ne.1 (List.all_eq_true.1 (show "VRAM free -".toList.all (· != '0') = true by decide) c hc)
    rw [List.flatMap_cons, List.flatMap_cons, ← scan_masked h.2.2]
    exact scan_no_head _ hne

/-- Masking the reports masks exactly their pieces. -/
theorem replaceAll_vrams (h : Sits ps) : vramRe.replaceAll "VRAM free -".toList (ps.flatMap Piece.text) = ps.flatMap masked := by
  unfold replaceAll
  rw [scan_vrams h, List.flatMap_assoc]
  refine List.flatMap_congr fun p _ => ?_
  cases p with
  | other c => rfl
  | addr t =>
    show (t.map Sum.inl).flatMap _ = t
    rw [List.flatMap_map]
    exact List.flatMap_singleton' t
  | vram n => rfl

/-! ## Marked texts -/

/-- An address that is found has its prefix and at least six digits. -/
theorem addrAt_of_first {s : Text} {h : Hit} (hf : addrRe.first s = some h) :
    ∃ hs : Text, s = "0x".toList ++ hs ∧ 6 ≤ (hs.takeWhile isHex).length ∧ h.text = "0x".toList ++ hs.takeWhile isHex := starts_of_first hf

/-- Where nothing is found, no address starts. -/
theorem not_addrAt {s : Text} (h : ∀ hit, addrRe.first s = some hit → hit.text = []) : ¬AddrAt s := by
  intro hs
  obtain ⟨r, rfl, hle⟩ := hs
  exact nomatch h _ (first_starts "0x".toList 6 isHex r hle)

theorem not_vramAt {s : Text} (h : ∀ hit, vramRe.first s = some hit → hit.text = []) : ¬VramAt s := by
  intro hs
  obtain ⟨r, rfl, hle⟩ := hs
  exact nomatch h _ (first_starts "VRAM free ".toList 1 isDigit r hle)

/-- An address that is found is whole. -/
theorem found_addr {t s : Text} {h : Hit} (hf : addrRe.first (t ++ s) = some h) (ht : h.text = t) :
    IsAddr t ∧ ∀ c : Char, s.head? = some c → isHex c = false := by
  obtain ⟨r, hr, hle, htext⟩ := addrAt_of_first hf
  have ht : t = "0x".toList ++ r.takeWhile isHex := ht.symm.trans htext
  have hr' : r = r.takeWhile isHex ++ s := by
    conv_lhs at hr => rw [ht]
    rw [List.append_assoc] at hr
    exact (List.append_cancel_left hr).symm
  refine ⟨⟨_, ht, hle, fun c hc => List.mem_takeWhile_imp hc⟩, ?_⟩
  exact stops_of_takeWhile (a := r.takeWhile isHex) (by rw [← hr'])

/-- A number of free memory that is found is whole. -/
theorem found_vram {n s : Text} {h : Hit} (hf : vramRe.first ("VRAM free ".toList ++ n ++ s) = some h)
    (ht : h.text = "VRAM free ".toList ++ n) :
    (n ≠ [] ∧ ∀ c ∈ n, isDigit c = true) ∧ ∀ c : Char, s.head? = some c → isDigit c = false := by
  obtain ⟨r, hr, hle, htext⟩ := starts_of_first hf
  have hn : n = r.takeWhile isDigit := List.append_cancel_left (ht.symm.trans htext)
  have hr' : r = r.takeWhile isDigit ++ s := by
    rw [← hn]
    exact (List.append_cancel_left ((List.append_assoc ..).symm.trans hr)).symm
  refine ⟨⟨fun hnil => ?_, fun c hc => ?_⟩, ?_⟩
  · rw [← hn, hnil] at hle
    exact absurd hle (by decide)
  · rw [hn] at hc
    exact List.mem_takeWhile_imp hc
  · exact stops_of_takeWhile (a := r.takeWhile isDigit) (by rw [← hr'])

/-- Pieces that the two scans agree with sit in their text. -/
theorem sits_of_scans (ps : List Piece) : addrRe.scan 0 (ps.flatMap Piece.text) = ps.flatMap Piece.inAddrs →
    vramRe.scan 0 (ps.flatMap Piece.text) = ps.flatMap Piece.inVrams → Sits ps := by
  induction ps with
  | nil => exact fun _ _ => trivial
  | cons p ps ih =>
    intro ha hv
    rw [List.flatMap_cons, List.flatMap_cons] at ha hv
    cases p with
    | other c =>
      obtain ⟨hna, ha⟩ := scan_inl ha
      obtain ⟨hnv, hv⟩ := scan_inl hv
      have hrest := ih ha hv
      refine ⟨?_, ?_, hrest⟩
      · rw [← addrAt_iff view_text hrest.formed]
        exact not_addrAt hna
      · rw [← vramAt_iff view_text hrest.formed]
        exact not_vramAt hnv
    | addr t =>
      obtain ⟨-, ⟨hit, hfirst, htext⟩, ha⟩ := scan_inr ha
      have hrest := ih ha (scan_map_inl hv)
      obtain ⟨haddr, hstop⟩ := found_addr hfirst htext
      rw [head_lead view_text hrest.formed] at hstop
      exact ⟨haddr, hstop, hrest⟩
    | vram n =>
      obtain ⟨-, ⟨hit, hfirst, htext⟩, hv⟩ := scan_inr hv
      have hrest := ih (scan_map_inl ha) hv
      obtain ⟨hdigits, hstop⟩ := found_vram hfirst htext
      rw [head_lead view_text hrest.formed] at hstop
      exact ⟨hdigits, hstop, hrest⟩

theorem sits_of_marks {t : Text} (h : Marks t ps) : Sits ps := by
  obtain ⟨rfl, ha, hv⟩ := h
  exact sits_of_scans ps ha hv

/-- Renaming keeps the pieces. -/
theorem renamed_sits {φ : Text → Text} (hφ : ∀ t, IsAddr t → IsAddr (φ t)) {ps ps' : List Piece} (h : List.Forall₂ (Renamed φ) ps ps') :
    Sits ps → Sits ps' ∧ lead ps' = lead ps := by
  induction h with
  | nil => exact fun _ => ⟨trivial, rfl⟩
  | cons hp _ ih =>
    intro hs
    cases hp with
    | other c =>
      obtain ⟨hrest, hlead⟩ := ih hs.2.2
      refine ⟨⟨?_, ?_, hrest⟩, congrArg (c :: ·) hlead⟩
      · rw [hlead]
        exact hs.1
      · rw [hlead]
        exact hs.2.1
    | addr t =>
      obtain ⟨hrest, hlead⟩ := ih hs.2.2
      refine ⟨⟨hφ t hs.1, ?_, hrest⟩, rfl⟩
      rw [hlead]
      exact hs.2.1
    | vram n hne hdigits =>
      obtain ⟨hrest, hlead⟩ := ih hs.2.2
      refine ⟨⟨⟨hne, hdigits⟩, ?_, hrest⟩, rfl⟩
      rw [hlead]
      exact hs.2.1

/-! ## Numbers of addresses -/

/-- The numbers that the addresses of a log so far have. -/
structure Numbered (ids : OrdMap Text Nat) (log : List Text) : Prop where
  size : ids.size = log.eraseDups.length
  get : ∀ t : Text, ids[t]? = if t ∈ log then some (log.eraseDups.idxOf t + 1) else none

/-- An address that was there has its number, and a new one has the next. -/
theorem eraseDups_snoc (log : List Text) (t : Text) : (log ++ [t]).eraseDups = if t ∈ log then log.eraseDups else log.eraseDups ++ [t] := by
  rw [List.eraseDups_append, List.cons_removeAll]
  by_cases h : t ∈ log
  · rw [if_pos h, if_neg]
    · exact List.append_nil _
    · simpa using h
  · rw [if_neg h, if_pos]
    · rfl
    · simpa using h

/-- The place of an address does not change when more addresses follow. -/
theorem idxOf_eraseDups_append {log : List Text} {t : Text} (h : t ∈ log) (more : List Text) :
    (log ++ more).eraseDups.idxOf t = log.eraseDups.idxOf t := by
  rw [List.eraseDups_append, List.idxOf_append_of_mem (List.mem_eraseDups.2 h)]

/-- An address gets the number that it has in the log up to it. -/
theorem emplace_numbered {ids : OrdMap Text Nat} {log : List Text} (h : Numbered ids log) (t : Text) :
    (emplace ids t).1 = (log ++ [t]).eraseDups.idxOf t + 1 ∧ Numbered (emplace ids t).2 (log ++ [t]) := by
  unfold emplace
  rw [h.get t]
  by_cases ht : t ∈ log
  · rw [if_pos ht]
    have hdups : (log ++ [t]).eraseDups = log.eraseDups := by rw [eraseDups_snoc, if_pos ht]
    refine ⟨by rw [hdups], by rw [hdups]; exact h.size, fun u => ?_⟩
    rw [hdups, h.get u]
    have hmem : u ∈ log ++ [t] ↔ u ∈ log := by
      rw [List.mem_append, List.mem_singleton]
      exact ⟨fun hu => hu.elim id fun heq => heq ▸ ht, .inl⟩
    simp only [hmem]
  · rw [if_neg ht]
    have hdups : (log ++ [t]).eraseDups = log.eraseDups ++ [t] := by rw [eraseDups_snoc, if_neg ht]
    have hnot : t ∉ log.eraseDups := mt List.mem_eraseDups.1 ht
    have hidx : (log ++ [t]).eraseDups.idxOf t = log.eraseDups.length := by
      rw [hdups, List.idxOf_append_of_notMem hnot, List.idxOf_cons_self, Nat.add_zero]
    refine ⟨by rw [hidx, ← h.size], ?_, fun u => ?_⟩
    · have hnew : t ∉ ids := by
        rw [Std.ExtTreeMap.mem_iff_isSome_getElem?, h.get t, if_neg ht]
        exact Bool.false_ne_true
      rw [hdups, List.length_append, ← h.size]
      dsimp only
      rw [Std.ExtTreeMap.size_insert, if_neg (show ¬ids.contains t = true from hnew)]
      rfl
    · dsimp only
      rw [OrdMap.getElem?_insert, h.get u]
      by_cases hu : u = t
      · subst hu
        rw [if_pos rfl, if_pos (List.mem_append_right _ List.mem_cons_self), hidx, h.size]
      · rw [if_neg hu]
        by_cases hlog : u ∈ log
        · rw [if_pos hlog, if_pos (List.mem_append_left _ hlog), idxOf_eraseDups_append hlog]
        · rw [if_neg hlog, if_neg fun hm => (List.mem_append.1 hm).elim hlog fun h => hu (List.mem_singleton.1 h)]

/-! ## The loop -/

/-- The text of what a search found. -/
def found : List (Char ⊕ Text) → Text
  | [] => []
  | .inl c :: xs => c :: found xs
  | .inr t :: xs => t ++ found xs

/-- The loop over what a search found, with the texts between the matches character by character. -/
def walk : List (Char ⊕ Text) → Text → OrdMap Text Nat → Text × OrdMap Text Nat
  | [], out, ids => (out, ids)
  | .inl c :: xs, out, ids => walk xs (out ++ [c]) ids
  | .inr t :: xs, out, ids => walk xs (out ++ vaName (emplace ids t).1) (emplace ids t).2

/-- The loop over the matches copies what is between them. -/
theorem rewrite_eq (s : Text) (xs : List (Char ⊕ Text)) : ∀ (i last : Nat) (out : Text) (ids : OrdMap Text Nat), last ≤ i →
    s.drop i = found xs → rewrite s (positions i xs) last out ids = walk xs (out ++ (s.drop last).take (i - last)) ids := by
  induction xs with
  | nil =>
    intro i last out ids hle hs
    have hall : (s.drop last).take (i - last) = s.drop last := by
      refine List.take_of_length_le ?_
      have hlen := congrArg List.length hs
      rw [List.length_drop] at hlen ⊢
      have hlen : s.length - i = 0 := hlen
      omega
    rw [hall]
    rfl
  | cons x xs ih =>
    intro i last out ids hle hs
    cases x with
    | inl c =>
      have hget : s[i]? = some c := by
        rw [← List.head?_drop, hs]
        rfl
      have hnext : s.drop (i + 1) = found xs := by
        rw [← List.tail_drop, hs]
        rfl
      have htake : (s.drop last).take (i + 1 - last) = (s.drop last).take (i - last) ++ [c] := by
        rw [Nat.succ_sub hle, List.take_add_one, List.getElem?_drop, Nat.add_sub_cancel' hle, hget]
        rfl
      show rewrite s (positions (i + 1) xs) last out ids = _
      rw [ih (i + 1) last out ids (Nat.le_succ_of_le hle) hnext, htake, ← List.append_assoc]
      rfl
    | inr t =>
      have hnext : s.drop (i + t.length) = found xs := by
        rw [← List.drop_drop, hs]
        exact List.drop_left
      show rewrite s (positions (i + t.length) xs) (i + t.length) _ _ = _
      rw [ih _ _ _ _ le_rfl hnext, Nat.sub_self, List.take_zero, List.append_nil, ← List.append_assoc]
      rfl

/-- Letters are written as they are. -/
theorem walk_map_inl (a : Text) (xs : List (Char ⊕ Text)) : ∀ (out : Text) (ids : OrdMap Text Nat),
    walk (a.map .inl ++ xs) out ids = walk xs (out ++ a) ids := by
  induction a with
  | nil =>
    intro out ids
    rw [List.append_nil]
    rfl
  | cons c cs ih =>
    intro out ids
    show walk (cs.map .inl ++ xs) (out ++ [c]) ids = _
    rw [ih, List.append_assoc]
    rfl

/-- A piece as the second pass sees it. -/
def maskedItems : Piece → List (Char ⊕ Text)
  | .addr t => [.inr t]
  | p => (masked p).map .inl

/-- What is found in two parts is found in both. -/
theorem found_append (xs ys : List (Char ⊕ Text)) : found (xs ++ ys) = found xs ++ found ys := by
  induction xs with
  | nil => rfl
  | cons x xs ih =>
    cases x with
    | inl c => exact congrArg (c :: ·) ih
    | inr t =>
      show t ++ found (xs ++ ys) = t ++ found xs ++ found ys
      rw [ih, List.append_assoc]

/-- Letters are found as they are. -/
theorem found_map_inl (a : Text) : found (a.map .inl) = a := by
  induction a with
  | nil => rfl
  | cons c cs ih => exact congrArg (c :: ·) ih

/-- The items of masked pieces are their text. -/
theorem found_masked (ps : List Piece) : found (ps.flatMap maskedItems) = ps.flatMap masked := by
  induction ps with
  | nil => rfl
  | cons p ps ih =>
    rw [List.flatMap_cons, List.flatMap_cons, found_append, ih]
    cases p with
    | other c => rfl
    | addr t => exact congrArg (· ++ _) (List.append_nil t)
    | vram n => exact congrArg (· ++ _) (found_map_inl _)

/-- The pieces are shown with the numbers that their addresses have in the whole log. -/
theorem walk_pieces (ps : List Piece) : ∀ {log : List Text} {ids : OrdMap Text Nat} (out : Text) (more : List Text), Numbered ids log →
    ∃ ids', walk (ps.flatMap maskedItems) out ids = (out ++ ps.flatMap (Piece.shown (log ++ ps.flatMap Piece.addrs ++ more)), ids') ∧
      Numbered ids' (log ++ ps.flatMap Piece.addrs) := by
  induction ps with
  | nil =>
    intro log ids out more h
    refine ⟨ids, ?_, ?_⟩
    · rw [List.flatMap_nil, List.flatMap_nil, List.append_nil]
      rfl
    · rw [List.flatMap_nil, List.append_nil]
      exact h
  | cons p ps ih =>
    intro log ids out more h
    have hplain (a : Text) (hitems : maskedItems p = a.map .inl) (haddrs : p.addrs = []) (hshown : ∀ l, p.shown l = a) :
        ∃ ids', walk ((p :: ps).flatMap maskedItems) out ids =
          (out ++ (p :: ps).flatMap (Piece.shown (log ++ (p :: ps).flatMap Piece.addrs ++ more)), ids') ∧
          Numbered ids' (log ++ (p :: ps).flatMap Piece.addrs) := by
      obtain ⟨ids', hwalk, hids⟩ := ih (out ++ a) more h
      refine ⟨ids', ?_, ?_⟩
      · rw [List.flatMap_cons, hitems, walk_map_inl, hwalk, List.flatMap_cons, hshown, List.flatMap_cons, haddrs, List.append_assoc]
        rfl
      · rw [List.flatMap_cons, haddrs]
        exact hids
    cases p with
    | other c => exact hplain [c] rfl rfl fun _ => rfl
    | vram n => exact hplain _ rfl rfl fun _ => rfl
    | addr t =>
      obtain ⟨hk, hnum⟩ := emplace_numbered h t
      obtain ⟨ids', hwalk, hids⟩ := ih (out ++ vaName (emplace ids t).1) more hnum
      have hlog : log ++ [t] ++ ps.flatMap Piece.addrs = log ++ (Piece.addr t :: ps).flatMap Piece.addrs := by
        rw [List.append_assoc]
        rfl
      rw [hlog] at hwalk hids
      have hplace : (log ++ (Piece.addr t :: ps).flatMap Piece.addrs ++ more).eraseDups.idxOf t = (log ++ [t]).eraseDups.idxOf t := by
        rw [← hlog, List.append_assoc]
        exact idxOf_eraseDups_append (List.mem_append_right _ List.mem_cons_self) _
      refine ⟨ids', ?_, hids⟩
      show walk (ps.flatMap maskedItems) (out ++ vaName (emplace ids t).1) (emplace ids t).2 = _
      rw [hwalk, List.append_assoc, hk, ← hplace]
      rfl

/-- One text after the others is shown piece by piece, with the numbers of all addresses so far. -/
theorem stabilize_pieces (h : Sits ps) {log : List Text} {ids : OrdMap Text Nat} (more : List Text) (hids : Numbered ids log) :
    ∃ ids', stabilize (ps.flatMap Piece.text) ids = (ps.flatMap (Piece.shown (log ++ ps.flatMap Piece.addrs ++ more)), ids') ∧
      Numbered ids' (log ++ ps.flatMap Piece.addrs) := by
  obtain ⟨ids', hwalk, hnum⟩ := walk_pieces ps [] more hids
  refine ⟨ids', ?_, hnum⟩
  unfold stabilize finds
  dsimp only
  have hscan : addrRe.scan 0 (ps.flatMap masked) = ps.flatMap maskedItems := scan_masked h
  rw [replaceAll_vrams h, hscan, rewrite_eq (ps.flatMap masked) _ 0 0 [] ids le_rfl (found_masked ps).symm]
  exact hwalk

/-- Texts that are put one after another: each is shown with the numbers of the whole log. -/
theorem puts_pieces (pss : List (List Piece)) : ∀ {log : List Text} {l : LogFile} (more : List Text), (∀ ps ∈ pss, Sits ps) → l.stable = true →
    Numbered l.ids log → (puts (pss.map fun ps => ps.flatMap Piece.text) l).1 =
      pss.map fun ps => ps.flatMap (Piece.shown (log ++ (pss.flatten.flatMap Piece.addrs ++ more))) := by
  induction pss with
  | nil => exact fun _ _ _ _ => rfl
  | cons ps pss ih =>
    intro log l more hs hl hids
    obtain ⟨ids', hput, hnum⟩ := stabilize_pieces (hs ps List.mem_cons_self) (pss.flatten.flatMap Piece.addrs ++ more) hids
    have hlog : log ++ ((ps :: pss).flatten.flatMap Piece.addrs ++ more) =
        log ++ ps.flatMap Piece.addrs ++ (pss.flatten.flatMap Piece.addrs ++ more) := by
      rw [List.flatten_cons, List.flatMap_append, List.append_assoc, List.append_assoc]
    rw [List.map_cons, List.map_cons, hlog]
    show (put _ l).1 :: (puts _ (put _ l).2).1 = _
    unfold put
    rw [hl, if_pos rfl, hput]
    exact congrArg (_ :: ·) (ih more (fun qs hq => hs qs (List.mem_cons_of_mem _ hq)) rfl hnum)

/-- No address has a number before the first. -/
theorem numbered_empty : Numbered ∅ [] := ⟨rfl, fun t => by simp⟩

/-- What is in the file is what was put, one after another. -/
theorem puts_file (ss : List Text) : ∀ l : LogFile, (puts ss l).2.f = l.f ++ (puts ss l).1.flatten := by
  induction ss with
  | nil => exact fun l => (List.append_nil _).symm
  | cons s ss ih =>
    intro l
    show (puts ss (l.put s).2).2.f = _
    rw [ih]
    show l.f ++ (l.put s).1 ++ _ = l.f ++ ((l.put s).1 ++ _)
    rw [List.append_assoc]

/-! ## Renaming -/

/-- A renaming that is injective keeps the first places. -/
theorem eraseDups_map {φ : Text → Text} (log : List Text) : (∀ t ∈ log, ∀ u ∈ log, φ t = φ u → t = u) →
    (log.map φ).eraseDups = log.eraseDups.map φ := by
  induction log using List.reverseRecOn with
  | nil => exact fun _ => rfl
  | append_singleton log t ih =>
    intro hinj
    have hih := ih fun a ha b hb => hinj a (List.mem_append_left _ ha) b (List.mem_append_left _ hb)
    have hmem : φ t ∈ log.map φ ↔ t ∈ log := by
      rw [List.mem_map]
      constructor
      · intro h
        obtain ⟨u, hu, heq⟩ := h
        rw [← hinj u (List.mem_append_left _ hu) t (List.mem_append_right _ List.mem_cons_self) heq]
        exact hu
      · exact fun h => ⟨t, h, rfl⟩
    rw [List.map_append, List.map_singleton, eraseDups_snoc, eraseDups_snoc, hih]
    by_cases h : t ∈ log
    · rw [if_pos h, if_pos (hmem.2 h)]
    · rw [if_neg h, if_neg (mt hmem.1 h), List.map_append, List.map_singleton]

/-- It keeps the numbers. -/
theorem idxOf_map {φ : Text → Text} {l : List Text} {t : Text} (hinj : ∀ u ∈ l, φ u = φ t → u = t) : (l.map φ).idxOf (φ t) = l.idxOf t := by
  induction l with
  | nil => rfl
  | cons u us ih =>
    rw [List.map_cons, List.idxOf_cons, List.idxOf_cons, ih fun v hv => hinj v (List.mem_cons_of_mem _ hv)]
    by_cases h : u = t
    · rw [h, beq_self_eq_true, beq_self_eq_true]
    · rw [beq_eq_false_iff_ne.2 h, beq_eq_false_iff_ne.2 fun heq => h (hinj u List.mem_cons_self heq)]

/-- The addresses of renamed pieces are the renamed addresses. -/
theorem addrs_renamed {φ : Text → Text} {ps ps' : List Piece} (h : List.Forall₂ (Renamed φ) ps ps') :
    ps'.flatMap Piece.addrs = (ps.flatMap Piece.addrs).map φ := by
  induction h with
  | nil => rfl
  | cons hp _ ih =>
    rw [List.flatMap_cons, List.flatMap_cons, List.map_append, ih]
    cases hp with
    | other c => rfl
    | addr t => rfl
    | vram n hne hdigits => rfl

/-- Renamed pieces are shown the same. -/
theorem shown_renamed {φ : Text → Text} {log : List Text} (hinj : ∀ t ∈ log, ∀ u ∈ log, φ t = φ u → t = u) {ps ps' : List Piece}
    (h : List.Forall₂ (Renamed φ) ps ps') : (∀ t ∈ ps.flatMap Piece.addrs, t ∈ log) →
    ps'.flatMap (Piece.shown (log.map φ)) = ps.flatMap (Piece.shown log) := by
  induction h with
  | nil => exact fun _ => rfl
  | cons hp _ ih =>
    intro hlog
    rw [List.flatMap_cons] at hlog
    rw [List.flatMap_cons, List.flatMap_cons, ih fun t ht => hlog t (List.mem_append_right _ ht)]
    cases hp with
    | other c => rfl
    | vram n hne hdigits => rfl
    | addr t =>
      have ht : t ∈ log := hlog t (List.mem_append_left _ List.mem_cons_self)
      have hk : (log.map φ).eraseDups.idxOf (φ t) = log.eraseDups.idxOf t := by
        rw [eraseDups_map log hinj, idxOf_map fun u hu heq => hinj u (List.mem_eraseDups.1 hu) t ht heq]
      have hshown : Piece.shown (log.map φ) (.addr (φ t)) = Piece.shown log (.addr t) := congrArg (fun k => vaName (k + 1)) hk
      rw [hshown]

/-- Two addresses of a log become the same exactly when they are the same. -/
theorem vaName_inj {k k' : Nat} (h : vaName k = vaName k') : k = k' := by
  have hdigits := List.append_cancel_left h
  rw [← @Nat.ofDigitChars_ten_toDigits k, hdigits, Nat.ofDigitChars_ten_toDigits]

end LogAux

end Vmem
