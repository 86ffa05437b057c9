import Vmem.Lemmas.Config

/-!
# The configuration in force

The broker reads its configuration in pieces of 255 bytes and shifts the numbers left. It reads exactly the files whose pieces say what their lines
say, with and without the text of the comments.
-/

namespace Vmem

namespace ConfigAux

open ConfigFile

/-- The broker starts when the pieces it reads are allowed, and only then. -/
theorem starts_iff (text : Text) : (∃ g, readConfig text = .ok g) ↔ Allowed (fgetsAll 256 255 text) := by
  constructor
  · intro ⟨g, hg⟩
    by_contra h
    obtain ⟨e, he⟩ := configLines_error _ 1 {} h
    exact nomatch hg.symm.trans he
  · intro h
    obtain ⟨g, hg, -⟩ := configLines_ok 1 _ h
    exact ⟨g, hg⟩

/-- The broker starts on what is allowed, with the limits of the file. -/
def Reads (text : Text) : Prop :=
  ((∃ g, readConfig text = .ok g) ↔ Allowed (getlines '\n' text)) ∧
    ∀ g, readConfig text = .ok g → ∀ (k : Key) (n : Int), Number (getlines '\n' text) k n → InForce (amount k n) (k.field g)

/-- The broker reads what the lines say exactly if the pieces agree with them. -/
theorem reads_iff (text : Text) : Reads text ↔ PiecesAgree text := by
  unfold Reads
  rw [starts_iff]
  constructor
  · intro ⟨hstarts, hlimits⟩
    refine ⟨hstarts, fun hlines k n m hn hm => ?_⟩
    obtain ⟨g, hg, hfields, -⟩ := configLines_ok 1 _ (hstarts.2 hlines)
    obtain ⟨n', hle, hn'⟩ := exists_number (getlines '\n' text) k
    obtain ⟨m', hle', hm'⟩ := exists_number (fgetsAll 256 255 text) k
    rw [number_unique _ hn hn', number_unique _ hm hm']
    rw [number_unique _ hn hn'] at hn
    have hforce := hlimits g hg k n' hn
    rw [hfields k m' hm'] at hforce
    exact (inForce_width hle hle').1 hforce
  · intro h
    refine ⟨h.allowed, fun g hg k n hn => ?_⟩
    have hpieces := (starts_iff text).1 ⟨g, hg⟩
    obtain ⟨g', hg', hfields, -⟩ := configLines_ok 1 _ hpieces
    obtain rfl := Except.ok.inj (hg.symm.trans hg')
    obtain ⟨n', hle, hn'⟩ := exists_number (getlines '\n' text) k
    obtain ⟨m', hle', hm'⟩ := exists_number (fgetsAll 256 255 text) k
    rw [number_unique _ hn hn', hfields k m' hm']
    exact (inForce_width hle hle').2 (h.numbers (h.allowed.1 hpieces) k n' m' hn' hm')

/-- Pieces that follow the lines agree with them when every number is below `2 ^ 44`. -/
theorem piecesAgree_follow {text : Text} (h : Follow (fgetsAll 256 255 text) (getlines '\n' text)) : PiecesAgree text ↔
    (Allowed (getlines '\n' text) → ∀ (k : Key) (n : Int), Number (getlines '\n' text) k n → n < 2 ^ 44) := by
  have hsame {k : Key} {n m : Int} (hn : Number (getlines '\n' text) k n) (hm : Number (fgetsAll 256 255 text) k m) : n = m :=
    number_unique _ hn (((h.number k).2 m).1 hm)
  constructor
  · intro hagree hlines k n hn
    have hamount := hagree.numbers hlines k n n hn (((h.number k).2 n).2 hn)
    by_cases hneg : n = -1
    · omega
    · have hpos : amount k n = some n.toNat := if_neg hneg
      rw [hpos, Option.map_some, Option.some.injEq] at hamount
      omega
  · intro hlow
    refine ⟨h.allowed, fun hlines k n m hn hm => ?_⟩
    obtain rfl := hsame hn hm
    have hlt := hlow hlines k n hn
    obtain ⟨n', hle, hn'⟩ := exists_number (getlines '\n' text) k
    obtain rfl := number_unique _ hn hn'
    by_cases hneg : n = -1
    · subst hneg
      cases k
      all_goals rfl
    · have hpos : amount k n = some n.toNat := if_neg hneg
      rw [hpos, Option.map_some, Option.some.injEq]
      omega

/-- One amount is in force. -/
theorem inForce_unique {a : Option Nat} {b b' : Size} (h : InForce a b) (h' : InForce a b') : b = b' := by
  cases a with
  | none => exact Eq.trans h (Eq.symm h')
  | some n => exact BitVec.eq_of_toNat_eq (Eq.trans h (Eq.symm h'))

/-- Two files that are read exactly and have the same lines without comments give the same limits. -/
theorem reads_same {text text' : Text} (h : Reads text) (h' : Reads text')
    (heq : (getlines '\n' text').map uncomment = (getlines '\n' text).map uncomment) {g : Global} (hg : readConfig text = .ok g) :
    readConfig text' = .ok g := by
  have hlines := h.1.1 ⟨g, hg⟩
  have hlines' : Allowed (getlines '\n' text') := by
    rw [← allowed_uncomment, heq, allowed_uncomment]
    exact hlines
  obtain ⟨g', hg'⟩ := h'.1.2 hlines'
  have hfield (k : Key) : k.field g = k.field g' := by
    obtain ⟨n, -, hn⟩ := exists_number (getlines '\n' text) k
    have hn' : Number (getlines '\n' text') k n := by
      rw [← number_uncomment, heq, number_uncomment]
      exact hn
    exact inForce_unique (h.2 g hg k n hn) (h'.2 g' hg' k n hn')
  have hzero {t : Text} {g : Global} (hg : readConfig t = .ok g) : g.device = 0 ∧ g.host = 0 := by
    obtain ⟨g₀, hg₀, -, hzero⟩ := configLines_ok 1 _ ((starts_iff t).1 ⟨g, hg⟩)
    obtain rfl := Except.ok.inj (hg.symm.trans hg₀)
    exact hzero
  obtain ⟨hdevice, hhost⟩ := hzero hg
  obtain ⟨hdevice', hhost'⟩ := hzero hg'
  have hsame : g = g' := by
    cases g
    cases g'
    cases hdevice
    cases hhost
    cases hdevice'
    cases hhost'
    cases hfield .vram
    cases hfield .dram
    cases hfield .overhead
    rfl
  rw [hsame]
  exact hg'

end ConfigAux

open ConfigFile ConfigAux

/-- A configuration is read exactly when its pieces agree with its lines, in the file and in the file without the text of the comments, and
only then. -/
theorem config_exact (text : Text) : Exact text ↔ PiecesAgree text ∧ PiecesAgree (uncommentAll false text) := by
  rw [← reads_iff, ← reads_iff]
  obtain ⟨heq, -⟩ := lines_uncommentAll text
  constructor
  · intro h
    refine ⟨⟨h.starts, h.limits⟩, ?_, fun g hg k n hn => ?_⟩
    · rw [allowed_uncommentAll, ← h.starts]
      exact exists_congr fun g => (h.comments g).symm
    · exact h.limits g ((h.comments g).2 hg) k n ((number_uncommentAll text).1 hn)
  · intro ⟨h, h'⟩
    exact ⟨h.1, h.2, fun g => ⟨reads_same h h' heq, reads_same h' h heq.symm⟩⟩

/-- A file without lines over 255 bytes is read exactly when it asks for less than 16 EiB, and only then. -/
theorem config_exact_short (text : Text) (hshort : ∀ l ∈ getlines '\n' text, l.length ≤ 255) :
    Exact text ↔ (Allowed (getlines '\n' text) → ∀ (k : Key) (n : Int), Number (getlines '\n' text) k n → n < 2 ^ 44) := by
  have hfollow := follow_short text hshort
  have hfollow' := follow_short _ (short_uncommentAll hshort)
  rw [config_exact, piecesAgree_follow hfollow, piecesAgree_follow hfollow', allowed_uncommentAll]
  simp only [number_uncommentAll, and_self]

set_option maxRecDepth 2000 in
/-- A limit of 16 EiB is read as no memory at all, and a comment longer than a piece stops the broker. -/
theorem config_not_exact : ¬Exact "vram_limit_mib = 17592186044416\n".toList ∧ ¬Exact ('#' :: List.replicate 300 'x') := by
  constructor
  · intro h
    have hread : readConfig "vram_limit_mib = 17592186044416\n".toList = .ok { vramLimit := 0 } := by decide
    have hassigns : Assigns (uncomment "vram_limit_mib = 17592186044416".toList) Key.vram.name 17592186044416 := by
      refine ⟨[], " ".toList, " ".toList, "17592186044416".toList, [], by decide, nofun, ?_, ?_, nofun, "17592186044416".toList, by decide,
        List.all_eq_true.1 (by decide), .inl ⟨.inl rfl, by decide⟩⟩
      all_goals exact List.all_eq_true.1 (by decide)
    have hnumber : Number (getlines '\n' "vram_limit_mib = 17592186044416\n".toList) .vram 17592186044416 :=
      .inl ⟨[], _, [], by decide, .assign hassigns (by decide), nofun⟩
    have hforce : (0 : Size).toNat = 17592186044416 * 2 ^ 20 := h.limits _ hread .vram _ hnumber
    exact absurd hforce (by decide)
  · intro h
    have hallowed : Allowed (getlines '\n' ('#' :: List.replicate 300 'x')) := by
      have hlines : getlines '\n' ('#' :: List.replicate 300 'x') = ['#' :: List.replicate 300 'x'] := by decide
      rw [hlines]
      exact List.forall_mem_singleton.2 ⟨none, .blank nofun⟩
    obtain ⟨g, hg⟩ := h.starts.2 hallowed
    have hread : readConfig ('#' :: List.replicate 300 'x') = .error (.expected 2) := by decide
    exact nomatch hg.symm.trans hread

end Vmem
