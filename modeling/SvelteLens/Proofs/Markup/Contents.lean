import SvelteLens.Proofs.Markup.Frames

/-! Where the contents of tags begin and end. Content begins directly behind the angle bracket of its start
tag, where no block ends, for one item of the text is either a tag or a block. It ends inside the text. -/
namespace SvelteLens.Markup

open Text (width)

def Progress.blocks (p : Progress) : List Span :=
  (p.instanceScript.toList ++ p.moduleScript.toList).map (·.span) ++ p.styles

/-- An offset directly behind an angle bracket. -/
def BehindBracket (text : List Char) (offset : Nat) : Prop :=
  ∃ before after, text = before ++ '>' :: after ∧ offset = width before + 1

variable {text front : List Char} {zones more : List Zone} {p p' : Progress} {c c' : Cursor}

/-- What it takes for an item to open a tag: it moves on to an angle bracket and brings no block. -/
structure Opens (text : List Char) (p : Progress) (c : Cursor) (p' : Progress) (c' : Cursor) (o : OpenTag) : Prop where
  content : o.tag.content = some (Span.empty c'.offset)
  forward : c.offset < c'.offset
  blocks : p'.blocks = p.blocks
  bracket : BehindBracket text c'.offset ∨ c'.rest = []

theorem scanEndTag_opened (h : scanEndTag p c = .ok (p', c')) {o : OpenTag} (member : o ∈ p'.opened) :
    ∃ old ∈ p.opened, o.tag = old.tag := by
  unfold scanEndTag at h
  split at h
  · split at h
    · cases h
    · next tag children rest opened =>
      cases h
      obtain ⟨old, listed, same⟩ := Progress.opened_addNode member
      exact ⟨old, opened ▸ List.mem_cons_of_mem _ listed, same⟩
  · cases h

theorem scanStartTag_opens (here : (Cursor.start text).Reads front c) (h : scanStartTag p c = .ok (p', c'))
    {o : OpenTag} (member : o ∈ p'.opened) : (∃ old ∈ p.opened, o.tag = old.tag) ∨ Opens text p c p' c' o := by
  unfold scanStartTag at h
  simp only at h
  generalize (fun x => !Text.isBlank x && decide (x ≠ '>') && decide (x ≠ '/')) = ends at h
  have opening := (c.skip_reads 1).trans ((c.skip 1).takeWhile_reads ends)
  split at h
  · rw [(scanBlock_nodes h).2] at member
    exact .inl ⟨o, member, rfl⟩
  · obtain ⟨⟨attributes, last⟩, scanned, h⟩ := chain_ok.mp h
    obtain ⟨run, reads⟩ := (attributes_listed scanned).reads
    have entered := opening.trans reads
    simp only at h
    split at h
    · cases h
      exact .inl (Progress.opened_addNode member)
    · next stays =>
      cases h
      have closing : ¬last.startsWith "/>" = true := fun closes => stays (by rw [closes]; rfl)
      rcases List.mem_cons.mp member with rfl | old
      · refine .inr ⟨rfl, ?_, rfl, ?_⟩
        · rw [if_neg closing]
          exact Nat.lt_succ_of_le entered.le
        · rw [if_neg closing]
          obtain ⟨whole, offset⟩ := (here.trans entered).cut
          rcases scanAttributes_stops scanned with empty | bracket | closes
          · exact .inr (by simp [empty])
          · obtain ⟨rest, split⟩ := List.isPrefixOf_iff_prefix.mp bracket
            exact .inl ⟨_, rest, by rw [whole, ← split]; rfl, by rw [offset]⟩
          · exact absurd closes closing
      · exact .inl ⟨o, old, rfl⟩

theorem scanItem_opens (here : (Cursor.start text).Reads front c) (h : scanItem p c = .ok (p', c'))
    {o : OpenTag} (member : o ∈ p'.opened) : (∃ old ∈ p.opened, o.tag = old.tag) ∨ Opens text p c p' c' o := by
  unfold scanItem at h
  split at h
  · split at h
    · cases h
      exact .inl ⟨o, member, rfl⟩
    · cases h
  · split at h
    · exact .inl (scanEndTag_opened h member)
    · split at h
      · exact scanStartTag_opens here h member
      · split at h
        · obtain ⟨_, _, h⟩ := chain_ok.mp h
          cases h
          exact .inl ⟨o, member, rfl⟩
        · cases h
          exact .inl ⟨o, member, rfl⟩

/-- All blocks so far are behind the cursor. -/
theorem Scanned.blocks_behind (valid : Scanned text p c.offset zones) {span : Span} (member : span ∈ p.blocks) :
    span.stop ≤ c.offset := by
  have behind (z : Zone) (zone : z ∈ zones) : z.span.stop ≤ c.offset := valid.behind z zone
  rcases List.mem_append.mp member with script | style
  · obtain ⟨block, listed, rfl⟩ := List.mem_map.mp script
    rcases List.mem_append.mp listed with own | shared
    · exact behind _ (valid.instanceScript block (Option.mem_toList.mp own))
    · exact behind _ (valid.moduleScript block (Option.mem_toList.mp shared))
  · rw [valid.styles] at style
    obtain ⟨z, zone, same⟩ := List.mem_filterMap.mp style
    cases z with
    | style span =>
      cases same
      exact behind _ zone
    | directive => cases same
    | script => cases same

theorem Adds.blocks (adds : Adds text p c p' c' more) {span : Span} (member : span ∈ p'.blocks) :
    span ∈ p.blocks ∨ c.offset < span.stop := by
  have ends (z : Zone) (new : z ∈ more) : c.offset < z.span.stop :=
    Nat.lt_of_le_of_lt (adds.fresh.inside z new).1 (adds.fresh.stand z new).proper
  unfold Progress.blocks at member ⊢
  rcases List.mem_append.mp member with script | style
  · obtain ⟨block, listed, rfl⟩ := List.mem_map.mp script
    rcases List.mem_append.mp listed with own | shared
    · rcases adds.instanceScript block (Option.mem_toList.mp own) with old | new
      · refine .inl (List.mem_append_left _ (List.mem_map_of_mem (List.mem_append_left _ ?_)))
        exact Option.mem_toList.mpr old
      · exact .inr (ends _ new)
    · rcases adds.moduleScript block (Option.mem_toList.mp shared) with old | new
      · refine .inl (List.mem_append_left _ (List.mem_map_of_mem (List.mem_append_right _ ?_)))
        exact Option.mem_toList.mpr old
      · exact .inr (ends _ new)
  · rw [adds.styles] at style
    rcases List.mem_append.mp style with old | new
    · exact .inl (List.mem_append_right _ old)
    · obtain ⟨z, zone, same⟩ := List.mem_filterMap.mp new
      cases z with
      | style span =>
        cases same
        exact .inr (ends _ zone)
      | directive => cases same
      | script => cases same

/-- An offset that the scanner has passed and where content begins. -/
structure Begins (text : List Char) (p : Progress) (c : Cursor) (offset : Nat) : Prop where
  bracket : BehindBracket text offset
  unblocked : ∀ span ∈ p.blocks, span.stop ≠ offset
  reached : offset ≤ c.offset

theorem Begins.grow {offset : Nat} (h : Begins text p c offset) (adds : Adds text p c p' c' more) :
    Begins text p' c' offset where
  bracket := h.bracket
  unblocked span member := by
    have reached := h.reached
    rcases adds.blocks member with old | new
    · exact h.unblocked span old
    · omega
  reached := Nat.le_trans h.reached adds.order

structure Contents (text : List Char) (p : Progress) (c : Cursor) : Prop where
  complete : ∀ tag ∈ p.elements, ∀ content ∈ tag.content,
    Begins text p c content.start ∧ content.start ≤ content.stop ∧ content.stop < width text
  opened : (∀ o ∈ p.opened, ∃ content ∈ o.tag.content, Begins text p c content.start) ∨ c.rest = []

namespace Contents

theorem start (text : List Char) : Contents text {} (Cursor.start text) := ⟨nofun, .inl nofun⟩

/-- One item completes a tag where it starts and opens one where it ends. -/
theorem grow (h : Contents text p c) (valid : Scanned text p c.offset zones) (here : (Cursor.start text).Reads front c)
    (left : c.rest ≠ []) (adds : Adds text p c p' c' more) (item : scanItem p c = .ok (p', c')) : Contents text p' c' where
  complete tag member content inside := by
    rcases (scanItem_turns item).complete tag member with old | none | ⟨o, open', closes⟩
    · obtain ⟨begins, order, upper⟩ := h.complete tag old content inside
      exact ⟨begins.grow adds, order, upper⟩
    · rw [none] at inside
      cases inside
    · obtain ⟨inner, found, begins⟩ := h.opened.resolve_right left o open'
      rw [closes, show o.tag.content = some inner from found] at inside
      cases inside
      obtain ⟨whole, offset⟩ := here.cut
      have rest := Text.width_pos left
      refine ⟨begins.grow adds, begins.reached, ?_⟩
      rw [whole, Text.width_append, offset]
      exact Nat.lt_add_of_pos_right rest
  opened := by
    by_cases ended : c'.rest = []
    · exact .inr ended
    · refine .inl fun o member => ?_
      rcases scanItem_opens here item member with ⟨old, listed, same⟩ | opens
      · obtain ⟨content, found, begins⟩ := h.opened.resolve_right left old listed
        exact ⟨content, same ▸ found, begins.grow adds⟩
      · refine ⟨_, opens.content, opens.bracket.resolve_right ended, fun span block => ?_, Nat.le_refl _⟩
        rw [opens.blocks] at block
        exact Nat.ne_of_lt (Nat.lt_of_le_of_lt (valid.blocks_behind block) opens.forward)

end Contents

theorem Scans.contents (h : Scans text p c) : Contents text p c := by
  induction h with
  | start => exact .start text
  | item before left item ih =>
    obtain ⟨zones, valid⟩ := before.scanned
    obtain ⟨⟨front, here⟩, more, adds⟩ := before.adds left item
    exact ih.grow valid here left adds item

structure Document.Encloses (text : List Char) (doc : Document) (content : Span) : Prop where
  bracket : BehindBracket text content.start
  unblocked : ∀ span ∈ doc.scripts.map (·.span) ++ doc.styles, span.stop ≠ content.start
  order : content.start ≤ content.stop
  stop : content.stop < width text

theorem scan_contents {text : String} {doc : Document} (h : scan text = .ok doc) {placed : Placed}
    (member : placed ∈ doc.tags) {content : Span} (inside : content ∈ placed.tag.content) :
    doc.Encloses text.toList content := by
  obtain ⟨p, c, scans, done⟩ := scan_scans h
  have contents := scans.contents
  unfold Progress.finish at done
  split at done
  · cases done
    have listed : placed.tag ∈ Node.elementsOf p.nodes.reverse := by
      rw [← Node.elements_tagsOf none]
      exact List.mem_map_of_mem member
    have element := Node.elementsOf_subset (List.reverse_subset.mpr (List.Subset.refl _)) listed
    obtain ⟨begins, order, stop⟩ := contents.complete placed.tag (List.mem_append_left _ element) content inside
    exact ⟨begins.bracket, begins.unblocked, order, stop⟩
  · cases done

end SvelteLens.Markup
