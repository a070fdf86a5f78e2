import SvelteLens.Proofs.Projection.Scopes

/-! What becomes of the nodes of a component. The scopes of slot props stand around what becomes of the content of
their tags, so they nest like the tree. -/
namespace SvelteLens

namespace Markup

theorem Node.tagsOf_append (enclosing : Option Tag) (xs ys : List Node) :
    Node.tagsOf enclosing (xs ++ ys) = Node.tagsOf enclosing xs ++ Node.tagsOf enclosing ys := by
  induction xs with
  | nil => rfl
  | cons x xs ih => rw [List.cons_append, Node.tagsOf, ih, Node.tagsOf, List.append_assoc]

/-- The closest component among the tags around a node, the innermost of which comes first. -/
def nearest (around : List Tag) : Option Tag := around.find? (·.isComponent)

theorem nearest_cons (tag : Tag) (around : List Tag) :
    nearest (tag :: around) = if tag.isComponent then some tag else nearest around := by
  unfold nearest
  rw [List.find?_cons]
  cases tag.isComponent <;> rfl

end Markup

namespace Projection

open Edit Markup
open Text (width bytes)

section Scopes

variable {source : String} {enclosing : Option Tag} {nodes : List Node} {text : List Char} {zones : List Zone}
  {start stop offset : Nat} {scope : Directive.Scope}

/-- The scopes of some nodes and of everything below them. -/
def scopesIn (source : String) (enclosing : Option Tag) (nodes : List Node) : List Directive.Scope :=
  (Node.tagsOf enclosing nodes).flatMap (scopesOf source)

theorem scopesIn_cons (tag : Tag) (children rest : List Node) : scopesIn source enclosing (.mk tag children :: rest) =
    scopesOf source ⟨tag, enclosing⟩ ++ (scopesIn source (if tag.isComponent then some tag else enclosing) children ++
      scopesIn source enclosing rest) := by
  rw [scopesIn, Node.tagsOf, Node.tags, List.cons_append, List.flatMap_cons, List.flatMap_append]
  rfl

theorem scopesOf_content {placed : Placed} (member : scope ∈ scopesOf source placed) :
    placed.tag.content = some scope.content := by
  obtain ⟨d, _, found⟩ := List.mem_filterMap.mp member
  exact (Directive.Site.scope?_names found).content

theorem scopesOf_none {tag : Tag} (none : tag.content = none) : scopesOf source ⟨tag, enclosing⟩ = [] := by
  refine List.eq_nil_iff_forall_not_mem.mpr fun scope member => ?_
  rw [scopesOf_content member] at none
  cases none

/-- The scopes of nodes open and close strictly inside the stretch of the nodes, at offsets between the zones. -/
theorem scopesIn_inside (nest : Nest text zones start stop nodes) (member : scope ∈ scopesIn source enclosing nodes) :
    start < scope.content.start ∧ scope.content.start ≤ scope.content.stop ∧ scope.content.stop < stop ∧
      Clear zones scope.content.start ∧ Clear zones scope.content.stop := by
  induction nest generalizing enclosing with
  | nil => cases member
  | bare none _ behind rest ih =>
    rw [scopesIn_cons, scopesOf_none none] at member
    have := @ih enclosing member
    refine ⟨by omega, this.2⟩
  | filled found _ _ clear clear' behind opens _ inner rest ihInner ih =>
    have order := inner.le
    have inside := rest.le
    rw [scopesIn_cons] at member
    rcases List.mem_append.mp member with own | member
    · obtain rfl := Option.some.inj (found.symm.trans (scopesOf_content own))
      exact ⟨by omega, order, by omega, clear, clear'⟩
    · rcases List.mem_append.mp member with below | later
      · have := ihInner below
        exact ⟨by omega, this.2.1, by omega, this.2.2.2⟩
      · have := ih later
        exact ⟨by omega, this.2⟩

theorem scopesIn_angle (nest : Nest text zones start stop nodes) (member : scope ∈ scopesIn source enclosing nodes) :
    Angle text zones scope.content.stop := by
  induction nest generalizing enclosing with
  | nil => cases member
  | bare none _ _ _ ih =>
    rw [scopesIn_cons, scopesOf_none none] at member
    exact @ih enclosing member
  | filled found _ angle _ _ _ _ _ _ _ ihInner ih =>
    rw [scopesIn_cons] at member
    rcases List.mem_append.mp member with own | member
    · obtain rfl := Option.some.inj (found.symm.trans (scopesOf_content own))
      exact angle
    · rcases List.mem_append.mp member with below | later
      · exact ihInner below
      · exact ih later

/-- In a document whose nodes nest, what the scopes insert is told apart from all that is rewritten. -/
theorem insertedAt_nested {reader : Script.Reader} {doc : Document} (confined : Confined reader source doc)
    (zoned : Zoned source.toList doc zones) (nest : Nest source.toList zones start stop doc.nodes) :
    insertedAt (contentCommands reader source doc) offset = insertedAt (rewritings reader source doc) offset ++
      insertedAt (scopeCommands (scopesIn source none doc.nodes)) offset := by
  refine insertedAt_content confined zoned ?_
  by_cases marked : ∃ j ∈ insertions (scopeCommands (documentScopes source doc)), j.offset = offset
  · obtain ⟨j, member, rfl⟩ := marked
    obtain ⟨scope, listed, ends⟩ := scopeCommands_offset member
    obtain ⟨_, _, _, clear, clear'⟩ := scopesIn_inside nest listed
    rcases ends with same | same
    · exact .inl (same ▸ clear)
    · exact .inl (same ▸ clear')
  · exact .inr fun j member same => marked ⟨j, member, same⟩

theorem scopesIn_quiet (nest : Nest text zones start stop nodes) (outside : offset ≤ start ∨ stop ≤ offset) :
    ∀ j ∈ insertions (scopeCommands (scopesIn source enclosing nodes)), j.offset ≠ offset := by
  intro j member same
  obtain ⟨scope, listed, ends⟩ := scopeCommands_offset member
  have inside := scopesIn_inside nest listed
  omega

end Scopes

/-- What is rewritten between two offsets, without what is inserted at them. -/
def interior (reader : Script.Reader) (source : String) (doc : Document) (start stop : Nat) : List UInt8 :=
  if start < stop then within (rewritings reader source doc) source start stop else []

/-- The parts that nodes become between two offsets, inside the tags around them. The content of an element stands in
the scopes of its slot props, one inside the other, and they enclose all that becomes of it. Around empty content
there is one empty scope after the other. -/
inductive Forest (reader : Script.Reader) (source : String) (doc : Document) :
    (around : List Tag) → (start stop : Nat) → List Node → List Part → Prop where
  | nil : Forest reader source doc around start stop [] [.plain (interior reader source doc start stop)]
  | bare : tag.content = none → Forest reader source doc around start stop rest parts →
      Forest reader source doc around start stop (.mk tag [] :: rest) parts
  | empty : tag.content = some content → content.start = content.stop →
      Forest reader source doc around content.stop stop rest parts →
      Forest reader source doc around start stop (.mk tag [] :: rest)
        (.plain (interior reader source doc start content.start) ::
          (Part.hollow (scopesOf source ⟨tag, nearest around⟩) ++ parts))
  | filled : tag.content = some content → content.start < content.stop →
      Forest reader source doc (tag :: around) content.start content.stop children below →
      Part.shownOf below = within (contentCommands reader source doc) source content.start content.stop →
      Forest reader source doc around content.stop stop rest parts →
      Forest reader source doc around start stop (.mk tag children :: rest)
        (.plain (interior reader source doc start content.start) ::
          (Part.enclosed (scopesOf source ⟨tag, nearest around⟩) below ++ parts))

section Forests

variable {reader : Script.Reader} {source : String} {doc : Document} {zones : List Zone} {start start' stop : Nat}
  {nodes children rest : List Node} {around : List Tag} {tag : Tag} {content : Span}

theorem within_interior (order : start < stop) (texts : ∀ i, start < i → i < stop →
    insertedAt (contentCommands reader source doc) i = insertedAt (rewritings reader source doc) i) :
    within (contentCommands reader source doc) source start stop = interior reader source doc start stop := by
  rw [interior, if_pos order, within, within, editAt?_rewritings]
  exact inside_congr order texts fun _ _ _ => rfl

/-- What the scopes of a tag, of its children and of what follows it insert at an offset. Those of the tag insert at
the ends of its content, those of the children between them, and all others behind them. -/
theorem scopesIn_texts (around : List Tag) (found : tag.content = some content)
    (inner : Nest source.toList zones content.start content.stop children)
    (later : Nest source.toList zones (content.stop + 1) stop rest) (i : Nat) :
    (i < content.start → insertedAt (scopeCommands (scopesIn source (nearest around) (.mk tag children :: rest))) i = []) ∧
    (i = content.start ∨ i = content.stop →
      insertedAt (scopeCommands (scopesIn source (nearest around) (.mk tag children :: rest))) i =
        insertedAt (scopeCommands (scopesOf source ⟨tag, nearest around⟩)) i) ∧
    (content.start < i → i < content.stop →
      insertedAt (scopeCommands (scopesIn source (nearest around) (.mk tag children :: rest))) i =
        insertedAt (scopeCommands (scopesIn source (nearest (tag :: around)) children)) i) ∧
    (content.stop < i → insertedAt (scopeCommands (scopesIn source (nearest around) (.mk tag children :: rest))) i =
      insertedAt (scopeCommands (scopesIn source (nearest around) rest)) i) := by
  have order := inner.le
  have own : ∀ j ∈ insertions (scopeCommands (scopesOf source ⟨tag, nearest around⟩)),
      j.offset = content.start ∨ j.offset = content.stop := by
    intro j member
    obtain ⟨scope, listed, ends⟩ := scopeCommands_offset member
    obtain rfl := Option.some.inj (found.symm.trans (scopesOf_content listed))
    exact ends
  have apart (out : i ≠ content.start ∧ i ≠ content.stop) :
      ∀ j ∈ insertions (scopeCommands (scopesOf source ⟨tag, nearest around⟩)), j.offset ≠ i := by
    intro j member same
    rcases own j member with ends | ends <;> omega
  have below (out : i ≤ content.start ∨ content.stop ≤ i) :
      ∀ j ∈ insertions (scopeCommands (scopesIn source (nearest (tag :: around)) children)), j.offset ≠ i :=
    scopesIn_quiet inner out
  have behind (out : i ≤ content.stop + 1) :
      ∀ j ∈ insertions (scopeCommands (scopesIn source (nearest around) rest)), j.offset ≠ i :=
    scopesIn_quiet later (.inl out)
  rw [scopesIn_cons, ← nearest_cons, scopeCommands, List.flatMap_append, List.flatMap_append, ← scopeCommands, ← scopeCommands,
    ← scopeCommands]
  refine ⟨fun out => ?_, fun ends => ?_, fun low high => ?_, fun out => ?_⟩
  · rw [insertedAt_append_right (apart (by omega)), insertedAt_append_right (below (by omega)),
      insertedAt_nil (behind (by omega))]
  · refine insertedAt_append_left fun j member => ?_
    rw [insertions_append] at member
    rcases List.mem_append.mp member with member | member
    · exact below (by omega) j member
    · exact behind (by omega) j member
  · rw [insertedAt_append_right (apart (by omega)), insertedAt_append_left (behind (by omega))]
  · rw [insertedAt_append_right (apart (by omega)), insertedAt_append_right (below (by omega))]

/-- What becomes of an element and of what follows it, when its scopes are told apart from all else. -/
theorem within_element (confined : Confined reader source doc) (zoned : Zoned source.toList doc zones)
    (found : tag.content = some content) (clear : Clear zones content.start) (clear' : Clear zones content.stop)
    (inner : Nest source.toList zones content.start content.stop children)
    (later : Nest source.toList zones (content.stop + 1) stop rest) (lower : start < content.start)
    (texts : ∀ i, start < i → i < stop → insertedAt (contentCommands reader source doc) i =
      insertedAt (rewritings reader source doc) i ++
        insertedAt (scopeCommands (scopesIn source (nearest around) (.mk tag children :: rest))) i) :
    (content.start = content.stop → within (contentCommands reader source doc) source start stop =
      interior reader source doc start content.start ++
        (Part.shownOf (Part.hollow (scopesOf source ⟨tag, nearest around⟩)) ++
          within (contentCommands reader source doc) source content.stop stop)) ∧
    (content.start < content.stop → ∀ parts,
      Part.shownOf parts = within (contentCommands reader source doc) source content.start content.stop →
      within (contentCommands reader source doc) source start stop = interior reader source doc start content.start ++
        (Part.shownOf (Part.enclosed (scopesOf source ⟨tag, nearest around⟩) parts) ++
          within (contentCommands reader source doc) source content.stop stop)) := by
  have order := inner.le
  have upper := later.le
  have ends := scopesIn_texts around found inner later
  have same : ∀ scope ∈ scopesOf source ⟨tag, nearest around⟩, scope.content = content :=
    fun scope listed => (Option.some.inj (found.symm.trans (scopesOf_content listed))).symm
  -- at the ends of the content only the scopes of the tag insert
  have atEnd (i : Nat) (clear : Clear zones i) (either : i = content.start ∨ i = content.stop) :
      insertedAt (contentCommands reader source doc) i =
        insertedAt (scopeCommands (scopesOf source ⟨tag, nearest around⟩)) i := by
    rw [texts i (by omega) (by omega), insertedAt_nil (quiet_of_clear clear confined zoned), (ends i).2.1 either]
    rfl
  have front : within (contentCommands reader source doc) source start content.start =
      interior reader source doc start content.start :=
    within_interior lower fun i low high => by rw [texts i low (by omega), (ends i).1 high, List.append_nil]
  have whole : within (contentCommands reader source doc) source start stop =
      interior reader source doc start content.start ++
      (insertedAt (scopeCommands (scopesOf source ⟨tag, nearest around⟩)) content.start ++
        within (contentCommands reader source doc) source content.start stop) := by
    rw [← front, ← atEnd content.start clear (.inl rfl)]
    exact inside_append (meets_of_clear clear confined zoned) lower (by omega)
  constructor
  · intro empty
    rw [whole, insertedAt_empty same empty, Part.shownOf_hollow, empty]
  · intro filled parts shown
    have halves : within (contentCommands reader source doc) source content.start stop =
        within (contentCommands reader source doc) source content.start content.stop ++
          (insertedAt (contentCommands reader source doc) content.stop ++
            within (contentCommands reader source doc) source content.stop stop) :=
      inside_append (meets_of_clear clear' confined zoned) filled (by omega)
    obtain ⟨openings, closings⟩ := insertedAt_ends same filled
    rw [whole, halves, atEnd content.stop clear' (.inr rfl), openings, closings, Part.shownOf_enclosed, shown]
    simp only [List.append_assoc]

/-- Nodes become a forest. The induction is on how they nest. -/
theorem forest (around : List Tag) (confined : Confined reader source doc) (zoned : Zoned source.toList doc zones)
    (nest : Nest source.toList zones start' stop nodes) (lower : start ≤ start') (order : start < stop)
    (texts : ∀ i, start < i → i < stop → insertedAt (contentCommands reader source doc) i =
      insertedAt (rewritings reader source doc) i ++ insertedAt (scopeCommands (scopesIn source (nearest around) nodes)) i) :
    ∃ parts, Forest reader source doc around start stop nodes parts ∧
      Part.shownOf parts = within (contentCommands reader source doc) source start stop := by
  induction nest generalizing start around with
  | nil =>
    refine ⟨_, .nil, ?_⟩
    rw [within_interior order fun i low high => (texts i low high).trans (List.append_nil _)]
    exact List.append_nil _
  | bare none _ behind rest ih =>
    have inside := rest.le
    obtain ⟨parts, forest, shown⟩ := ih around (by omega) order fun i low high => by
      rw [texts i low high, scopesIn_cons, scopesOf_none none]
      rfl
    exact ⟨parts, .bare none forest, shown⟩
  | filled found _ _ clear clear' behind opens _ inner later ihInner ih =>
    have filled := inner.le
    have inside := later.le
    have ends := scopesIn_texts around found inner later
    obtain ⟨empties, fills⟩ := within_element confined zoned found clear clear' inner later (by omega) texts
    obtain ⟨parts, forest, shown⟩ := ih around (Nat.le_succ _) (Nat.lt_of_succ_le inside) fun i low high => by
      rw [texts i (by omega) high, (ends i).2.2.2 low]
    rcases Nat.eq_or_lt_of_le filled with empty | filled
    · rw [empty] at inner
      obtain rfl := inner.eq_nil
      refine ⟨_, .empty found empty forest, ?_⟩
      rw [empties empty, Part.shownOf_plain, Part.shownOf_append, shown]
    · obtain ⟨below, forest', shown'⟩ := ihInner (_ :: around) (Nat.le_refl _) filled fun i low high => by
        rw [texts i (by omega) (by omega), (ends i).2.2.1 low high]
      refine ⟨_, .filled found filled forest' shown' forest, ?_⟩
      rw [fills filled below shown', Part.shownOf_plain, Part.shownOf_append, shown]

/-- The scopes in a forest are those of its nodes, in source order. -/
theorem Forest.marks {parts : List Part} (h : Forest reader source doc around start stop nodes parts) :
    Part.marksOf parts = (scopesIn source (nearest around) nodes).map .scope := by
  induction h with
  | nil => rfl
  | bare none _ ih =>
    rw [ih, scopesIn_cons, scopesOf_none none]
    rfl
  | empty found _ _ ih =>
    rw [Part.marksOf_plain, Part.marksOf_append, Part.marksOf_hollow, ih, scopesIn_cons, List.map_append]
    rfl
  | filled found _ _ _ _ ihInner ih =>
    rw [Part.marksOf_plain, Part.marksOf_append, Part.marksOf_enclosed, ihInner, ih, scopesIn_cons, nearest_cons]
    simp only [List.map_append, List.append_assoc]

end Forests

end Projection
end SvelteLens
