import Mips.Program.Listing
import Mips.Proofs.Numeral.Digits
import Mips.Proofs.Outcome
import Mips.Proofs.Text.Cuts

namespace Mips.Program

open Numeral

/-- Lines that follow a marker spell a program: each holds, between blanks, nothing, a marker, or
the 32 digits of a word, which goes to the segment whose marker came last. -/
inductive Spells : Segment → List (List Char) → Program → Prop
  | nil {seg : Segment} : Spells seg [] {}
  | blank {seg : Segment} {l : List Char} {ls : List (List Char)} {p : Program} :
      Text.trim l = [] → Spells seg ls p → Spells seg (l :: ls) p
  | marker {seg s : Segment} {l : List Char} {ls : List (List Char)} {p : Program} :
      Text.trim l = s.marker → Spells s ls p → Spells seg (l :: ls) p
  | word {seg : Segment} {l : List Char} {ls : List (List Char)} {p : Program} {w : Word} :
      Text.trim l = binary32 w.toNat → Spells seg ls p → Spells seg (l :: ls) (p.cons seg w)

section Words

variable {c : Char} {n : Nat} {w : Word} {s : List Char}

theorem value?_binary32 (n : Nat) : value? 2 (binary32 n) = some n :=
  value?_leftpad (by decide) (by decide) 32 n

theorem not_mem_binary32 (hc : c.isAlphanum = false) : c ∉ binary32 n := fun member => by
  rw [isAlphanum_of_value? (value?_binary32 n) c member] at hc
  cases hc

theorem trim_binary32 (n : Nat) : Text.trim (binary32 n) = binary32 n :=
  Text.trim_of_clean fun c member =>
    isBlank_of_isAlphanum (isAlphanum_of_value? (value?_binary32 n) c member)

theorem dropReturn_binary32 (n : Nat) : Text.dropReturn (binary32 n) = binary32 n :=
  Text.dropReturn_eq_self fun last => not_mem_binary32 (by decide) (List.mem_of_getLast? last)

theorem wordOfDigits?_eq_some_iff : wordOfDigits? s = some w ↔ s = binary32 w.toNat := by
  constructor
  · intro spelled
    unfold wordOfDigits? at spelled
    split at spelled
    · rename_i long
      obtain ⟨n, read, rfl⟩ := Option.map_eq_some_iff.mp spelled
      have small : n < Nat.pow 2 32 := long ▸ lt_of_value? read
      have toNat : (Word.ofNat n).toNat = n := Nat.mod_eq_of_lt small
      rw [toNat]
      exact eq_of_value? (by decide) (long.trans (toNat ▸ length_binary32 (Word.ofNat n)).symm)
        read (value?_binary32 n)
    · cases spelled
  · rintro rfl
    rw [wordOfDigits?, if_pos (length_binary32 w), value?_binary32, Option.map_some]
    exact congrArg some (BitVec.eq_of_toNat_eq (Nat.mod_eq_of_lt w.isLt))

theorem of_eq_blank_iff : ListingLine.of s = .blank ↔ s = [] := by
  unfold ListingLine.of
  grind

theorem of_eq_marker_iff {seg : Segment} : ListingLine.of s = .marker seg ↔ s = seg.marker := by
  have apart : Segment.data.marker ≠ Segment.text.marker := by decide
  have filled : seg.marker ≠ [] := by cases seg <;> decide
  unfold ListingLine.of
  cases seg <;> grind

/-- A word is no marker: 32 characters are too many for one. -/
theorem of_eq_word_iff : ListingLine.of s = .word w ↔ s = binary32 w.toNat := by
  rw [← wordOfDigits?_eq_some_iff]
  have short : ∀ m : List Char, m.length ≠ 32 → wordOfDigits? m = none := fun m hm => by
    rw [wordOfDigits?, if_neg hm]
  have blank := short [] (by decide)
  have data := short Segment.data.marker (by decide)
  have text := short Segment.text.marker (by decide)
  unfold ListingLine.of
  grind

end Words

section Lines

variable {seg : Segment} {ws : List Word} {ls : List (List Char)} {p : Program}

theorem ofLines_eq_ok_iff {ls : List (Nat × List Char)} :
    ofLines seg ls = .ok p ↔ Spells seg (ls.map (·.2)) p := by
  constructor
  · intro read
    induction ls generalizing seg p with
    | nil =>
      cases read
      exact .nil
    | cons l ls ih =>
      obtain ⟨n, l⟩ := l
      unfold ofLines at read
      split at read
      · exact .blank (of_eq_blank_iff.mp ‹_›) (ih read)
      · exact .marker (of_eq_marker_iff.mp ‹_›) (ih read)
      · obtain ⟨q, rest, rfl⟩ := map_eq_ok_iff.mp read
        exact .word (of_eq_word_iff.mp ‹_›) (ih rest)
      · cases read
  · intro spelled
    induction ls generalizing seg p with
    | nil =>
      cases spelled
      rfl
    | cons l ls ih =>
      obtain ⟨n, l⟩ := l
      rw [ofLines]
      cases spelled with
      | blank blank rest => simp only [of_eq_blank_iff.mpr blank, ih rest]
      | marker marker rest => simp only [of_eq_marker_iff.mpr marker, ih rest]
      | word word rest =>
        simp only [of_eq_word_iff.mpr word, ih rest]
        rfl

theorem ofListing_eq_ok_iff {s : List Char} :
    ofListing s = .ok p ↔ Spells .text (Text.lines s) p := by
  rw [ofListing, ofLines_eq_ok_iff, Text.snd_numbered]

theorem lines_wordLines (ws : List Word) (s : List Char) :
    Text.lines (ws.flatMap wordLine ++ s) = ws.map (binary32 ·.toNat) ++ Text.lines s := by
  induction ws with
  | nil => rfl
  | cons w ws ih =>
    rw [List.flatMap_cons, wordLine, List.append_assoc, List.append_assoc, List.singleton_append,
      Text.lines_append (not_mem_binary32 (by decide)), dropReturn_binary32, ih, List.map_cons,
      List.cons_append]

theorem lines_segmentLines (seg : Segment) (ws : List Word) (s : List Char) :
    Text.lines (segmentLines seg ws ++ s) =
      seg.marker :: (ws.map (binary32 ·.toNat) ++ Text.lines s) := by
  have single : '\n' ∉ seg.marker := by cases seg <;> decide
  have plain : Text.dropReturn seg.marker = seg.marker := by cases seg <;> decide
  rw [segmentLines, List.append_assoc, List.cons_append, Text.lines_append single, plain,
    lines_wordLines]

theorem lines_listing (p : Program) :
    Text.lines p.listing =
      Segment.data.marker :: (p.data.map (binary32 ·.toNat) ++
        Segment.text.marker :: p.text.map (binary32 ·.toNat)) := by
  have none : Text.lines [] = [] := by
    rw [Text.lines]
    rfl
  have last := lines_segmentLines .text p.text []
  rw [List.append_nil, none, List.append_nil] at last
  rw [listing, lines_segmentLines, last]

/-- Puts words before the others of their segment. -/
def prepend (p : Program) (seg : Segment) (ws : List Word) : Program :=
  ws.foldr (fun w q => q.cons seg w) p

theorem prepend_data (p : Program) (ws : List Word) :
    p.prepend .data ws = { p with data := ws ++ p.data } := by
  induction ws with
  | nil => rfl
  | cons w ws ih =>
    rw [prepend, List.foldr_cons, ← prepend, ih]
    rfl

theorem prepend_text (p : Program) (ws : List Word) :
    p.prepend .text ws = { p with text := ws ++ p.text } := by
  induction ws with
  | nil => rfl
  | cons w ws ih =>
    rw [prepend, List.foldr_cons, ← prepend, ih]
    rfl

theorem Spells.segment (rest : Spells seg ls p) (s : Segment) (ws : List Word) :
    Spells s (seg.marker :: (ws.map (binary32 ·.toNat) ++ ls)) (p.prepend seg ws) := by
  have trimmed : Text.trim seg.marker = seg.marker := by cases seg <;> decide
  refine .marker trimmed ?_
  induction ws with
  | nil => exact rest
  | cons w ws ih => exact .word (trim_binary32 _) ih

end Lines

theorem ofListing_listing (p : Program) : ofListing p.listing = .ok p := by
  have text : Spells .data (Segment.text.marker :: p.text.map (binary32 ·.toNat))
      { text := p.text } := by
    simpa [prepend_text] using Spells.segment (.nil : Spells .text [] {}) .data p.text
  have whole := text.segment .text p.data
  rw [← lines_listing, prepend_data, List.append_nil] at whole
  exact ofListing_eq_ok_iff.mpr whole

/-- Listings are a canonical form. A text is read exactly as the program that its lines spell,
whatever markers, blank lines, blanks and line endings it has, and the listing of that program is
read as the same program. -/
theorem listing_canonical :
    (∀ p : Program, ofListing p.listing = .ok p) ∧
      ∀ (s : List Char) (p : Program),
        (ofListing s = .ok p ↔ Spells .text (Text.lines s) p) ∧
          (ofListing s = .ok p → ofListing p.listing = .ok p) :=
  ⟨ofListing_listing, fun _ p => ⟨ofListing_eq_ok_iff, fun _ => ofListing_listing p⟩⟩

theorem listing_canonical_untidy :
    ofListing ("00000000000000000000000000001100\r\n\t.data \r\n\r\n" ++
        " 11111111111111111111111111111111\n.text\n.data\n00000000000000000000000000000001\n" ++
        ".text\n00000011111000000000000000001000").toList =
        .ok ⟨[0xffffffff, 1], [12, 0x03e00008]⟩ ∧
      ofListing (listing ⟨[0xffffffff, 1], [12, 0x03e00008]⟩) =
        .ok ⟨[0xffffffff, 1], [12, 0x03e00008]⟩ := by
  have read : ofListing ("00000000000000000000000000001100\r\n\t.data \r\n\r\n" ++
      " 11111111111111111111111111111111\n.text\n.data\n00000000000000000000000000000001\n" ++
      ".text\n00000011111000000000000000001000").toList =
        .ok ⟨[0xffffffff, 1], [12, 0x03e00008]⟩ := by decide +kernel
  exact ⟨read, (listing_canonical.2 _ _).2 read⟩

end Mips.Program
