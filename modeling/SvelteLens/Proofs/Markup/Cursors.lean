import SvelteLens.Markup.Scan
import SvelteLens.Proofs.Basics
import SvelteLens.Proofs.Text.Cuts

/-! What each move of a cursor reads. A run that was read stands between the two cursors. -/
namespace SvelteLens

open Text (width)

theorem Text.append_of_breakAt? {needle cs before after : List Char}
    (h : breakAt? needle cs = some (before, after)) : cs = before ++ (needle ++ after) := by
  induction cs generalizing before after with
  | nil =>
    unfold breakAt? at h
    split at h
    · cases h
      have none : needle = [] := by simpa using ‹needle.isEmpty = true›
      simp [none]
    · cases h
  | cons c cs ih =>
    unfold breakAt? at h
    split at h
    · cases h
      obtain ⟨rest, split⟩ := List.isPrefixOf_iff_prefix.mp ‹needle.isPrefixOf (c :: cs) = true›
      simp [← split]
    · obtain ⟨⟨front, rest⟩, found, same⟩ := Option.map_eq_some_iff.mp h
      cases same
      rw [ih found]
      simp

namespace Markup

namespace Cursor

variable {b c d : Cursor} {run more : List Char}

def Reads (c : Cursor) (run : List Char) (d : Cursor) : Prop :=
  c.rest = run ++ d.rest ∧ d.offset = c.offset + width run

theorem Reads.refl (c : Cursor) : c.Reads [] c := ⟨rfl, rfl⟩

theorem Reads.trans (h : b.Reads run c) (k : c.Reads more d) : b.Reads (run ++ more) d := by
  obtain ⟨rest, offset⟩ := h
  obtain ⟨rest', offset'⟩ := k
  refine ⟨by rw [rest, rest', List.append_assoc], ?_⟩
  rw [offset', offset, Text.width_append, Nat.add_assoc]

theorem Reads.split (h : c.Reads (run ++ more) d) :
    ∃ middle : Cursor, c.Reads run middle ∧ middle.Reads more d ∧ middle.offset = c.offset + width run := by
  obtain ⟨rest, offset⟩ := h
  refine ⟨⟨c.offset + width run, more ++ d.rest⟩, ⟨by rw [rest, List.append_assoc], rfl⟩, ⟨rfl, ?_⟩, rfl⟩
  rw [offset, Text.width_append, Nat.add_assoc]

theorem Reads.first {x : Char} (h : c.Reads (x :: run) d) :
    ∃ middle : Cursor, c.Reads [x] middle ∧ middle.Reads run d ∧ middle.offset = c.offset + width [x] :=
  Reads.split h

theorem Reads.le (h : c.Reads run d) : c.offset ≤ d.offset := by
  have := h.2
  omega

theorem Reads.lt (h : c.Reads run d) (ne : run ≠ []) : c.offset < d.offset := by
  have := h.2
  have := Text.width_pos ne
  omega

def start (text : List Char) : Cursor := ⟨0, text⟩

theorem Reads.cut {text : List Char} (h : (start text).Reads run c) : text = run ++ c.rest ∧ c.offset = width run := by
  obtain ⟨rest, offset⟩ := h
  exact ⟨rest, by rw [offset, start, Nat.zero_add]⟩

theorem skip_reads (c : Cursor) (n : Nat) : c.Reads (c.rest.take n) (c.skip n) :=
  ⟨(List.take_append_drop n c.rest).symm, rfl⟩

theorem takeWhile_reads (c : Cursor) (p : Char → Bool) : c.Reads (c.rest.takeWhile p) (c.takeWhile p).2 :=
  ⟨(List.takeWhile_append_dropWhile).symm, rfl⟩

theorem takeWhile_fst (c : Cursor) (p : Char → Bool) : (c.takeWhile p).1.toList = c.rest.takeWhile p :=
  String.toList_ofList

theorem skipBlank_reads (c : Cursor) : c.Reads (c.rest.takeWhile Text.isBlank) c.skipBlank :=
  takeWhile_reads c Text.isBlank

theorem skip_mark {mark : String} (h : c.startsWith mark = true) : c.Reads mark.toList (c.skip mark.toList.length) := by
  obtain ⟨rest, split⟩ := List.isPrefixOf_iff_prefix.mp h
  have taken : c.rest.take mark.toList.length = mark.toList := by rw [← split, List.take_left']; rfl
  have reads := skip_reads c mark.toList.length
  rwa [taken] at reads

theorem skipByte_reads (h : c.skipByte = .ok d) : ∃ x, x.utf8Size = 1 ∧ c.Reads [x] d := by
  unfold skipByte at h
  split at h
  · split at h
    · rename_i x rest found single
      cases h
      exact ⟨x, single, by simp [found], by simp [single]⟩
    · cases h
  · cases h

theorem breakAt?_reads {mark before : String} (h : c.breakAt? mark = some (before, d)) :
    c.Reads (before.toList ++ mark.toList) d := by
  obtain ⟨⟨front, after⟩, found, same⟩ := Option.map_eq_some_iff.mp h
  cases same
  refine ⟨?_, ?_⟩
  · rw [Text.append_of_breakAt? found, String.toList_ofList, List.append_assoc]
  · rw [String.toList_ofList, Text.width_append, Nat.add_assoc]

end Cursor

theorem closeBrace_reads {depth : Nat} {quote : Option Char} {offset : Nat} {cs inner : List Char} {after : Cursor}
    (h : closeBrace depth quote offset cs = some (inner, after)) :
    (⟨offset, cs⟩ : Cursor).Reads (inner ++ ['\x7d']) after := by
  induction cs generalizing depth quote offset inner with
  | nil => simp [closeBrace] at h
  | cons c cs ih =>
    -- Every branch but the last brace puts the character in front of what is read further on.
    have more : ∀ depth quote, ((closeBrace depth quote (offset + c.utf8Size) cs).map
        fun found => (c :: found.1, found.2)) = some (inner, after) →
        (⟨offset, c :: cs⟩ : Cursor).Reads (inner ++ ['\x7d']) after := by
      intro depth quote h
      obtain ⟨⟨inside, after⟩, found, same⟩ := Option.map_eq_some_iff.mp h
      cases same
      obtain ⟨rest, offset'⟩ := ih found
      simp only at rest offset'
      exact ⟨by simp [rest], by simp [offset', Nat.add_assoc]⟩
    unfold closeBrace at h
    simp only at h
    split at h
    · exact more _ _ h
    · split at h
      · exact more _ _ h
      · split at h
        · exact more _ _ h
        · split at h
          · rename_i closing
            split at h
            · cases h
              exact ⟨by simp [closing], by simp [closing]⟩
            · exact more _ _ h
          · exact more _ _ h

theorem braced_reads {c after : Cursor} {inner : List Char} (h : braced c = .ok (inner, after)) :
    c.Reads (inner ++ ['\x7d']) after := by
  unfold braced at h
  split at h
  · cases h
    exact closeBrace_reads ‹_›
  · cases h

end Markup
end SvelteLens
