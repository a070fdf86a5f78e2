import SvelteLens.Proofs.Markup.Attributes

/-! The zones of a document: its directives and its script and style blocks. They follow each other
in the text without overlap, whatever else stands between them. -/
namespace SvelteLens.Markup

open Text (width)

mutual

/-- The directives of a node and of everything below it, in source order. -/
def Node.directives : Node → List Directive
  | .mk tag children => tag.directives ++ Node.directivesOf children

def Node.directivesOf : List Node → List Directive
  | [] => []
  | node :: rest => node.directives ++ Node.directivesOf rest

end

mutual

theorem Node.directives_tags (enclosing : Option Tag) (node : Node) :
    (node.tags enclosing).flatMap (·.tag.directives) = node.directives := by
  cases node with
  | mk tag children =>
    rw [Node.tags, List.flatMap_cons, Node.directives_tagsOf, Node.directives]

theorem Node.directives_tagsOf (enclosing : Option Tag) (nodes : List Node) :
    (Node.tagsOf enclosing nodes).flatMap (·.tag.directives) = Node.directivesOf nodes := by
  cases nodes with
  | nil => rfl
  | cons node rest =>
    rw [Node.tagsOf, List.flatMap_append, Node.directives_tags, Node.directives_tagsOf, Node.directivesOf]

end

theorem Node.directivesOf_append (xs ys : List Node) :
    Node.directivesOf (xs ++ ys) = Node.directivesOf xs ++ Node.directivesOf ys := by
  induction xs with
  | nil => rfl
  | cons x xs ih => rw [List.cons_append, Node.directivesOf, ih, Node.directivesOf, List.append_assoc]

def Document.directives (doc : Document) : List Directive := doc.tags.flatMap (·.tag.directives)

/-- A part of the text that the projection treats as a whole. -/
inductive Zone where
  | directive (d : Directive)
  | style (span : Span)
  | script (shared : Bool) (block : ScriptBlock)

namespace Zone

def span : Zone → Span
  | .directive d => d.span
  | .style span => span
  | .script _ block => block.span

def directive? : Zone → Option Directive
  | .directive d => some d
  | _ => none

def style? : Zone → Option Span
  | .style span => some span
  | _ => none

inductive Stands (text : List Char) : Zone → Prop where
  | directive {first last : Cursor} : (Cursor.start text).Reads front first → Spelled first d last →
      Stands text (.directive d)
  | style {first last : Cursor} : (Cursor.start text).Reads front first → first.Reads run last → run ≠ [] →
      Stands text (.style ⟨first.offset, last.offset⟩)
  | script {front opening body closing : List Char} {first inner close last : Cursor} : (Cursor.start text).Reads front first →
      first.Reads opening inner → opening ≠ [] → inner.Reads body close → close.Reads closing last →
      closing ≠ [] →
      Stands text (.script shared ⟨⟨first.offset, last.offset⟩, ⟨inner.offset, close.offset⟩, lang⟩)

theorem Stands.proper {text : List Char} {z : Zone} (h : z.Stands text) : z.span.start < z.span.stop := by
  cases h with
  | directive _ spelled =>
    obtain ⟨run, ne, reads⟩ := spelled.reads
    cases spelled
    exact reads.lt ne
  | style _ reads ne => exact reads.lt ne
  | script _ opening ne body closing _ =>
    have := opening.lt ne
    have := body.le
    have := closing.le
    simp only [span]
    omega

end Zone

/-- The zones of a whole document. A script block that was replaced by a later one is a zone, too. -/
structure Zoned (text : List Char) (doc : Document) (zones : List Zone) : Prop where
  ascending : zones.Pairwise fun y z => y.span.stop ≤ z.span.start
  stand : ∀ z ∈ zones, z.Stands text
  directives : doc.directives = zones.filterMap Zone.directive?
  styles : doc.styles = zones.filterMap Zone.style?
  instanceScript : ∀ block ∈ doc.instanceScript, .script false block ∈ zones
  moduleScript : ∀ block ∈ doc.moduleScript, .script true block ∈ zones

def OpenTag.directives (o : OpenTag) : List Directive := o.tag.directives ++ Node.directivesOf o.children.reverse

def Progress.directives (p : Progress) : List Directive :=
  Node.directivesOf p.nodes.reverse ++ p.opened.reverse.flatMap OpenTag.directives

theorem Progress.directives_addNode (p : Progress) (node : Node) :
    (p.addNode node).directives = p.directives ++ node.directives := by
  have alone : Node.directivesOf [node] = node.directives := by simp [Node.directivesOf]
  unfold Progress.addNode
  split
  · rename_i parent rest opened
    simp only [Progress.directives, opened, List.reverse_cons, List.flatMap_append, List.flatMap_cons,
      List.flatMap_nil, List.append_nil, OpenTag.directives, Node.directivesOf_append, alone, List.append_assoc]
  · rename_i opened
    simp only [Progress.directives, opened, List.reverse_cons, List.reverse_nil, List.flatMap_nil, List.append_nil,
      Node.directivesOf_append, alone]

/-- What was scanned so far: the zones behind the cursor, in order. -/
structure Scanned (text : List Char) (p : Progress) (offset : Nat) (zones : List Zone) : Prop where
  ascending : zones.Pairwise fun y z => y.span.stop ≤ z.span.start
  behind : ∀ z ∈ zones, z.span.stop ≤ offset
  stand : ∀ z ∈ zones, z.Stands text
  directives : p.directives = zones.filterMap Zone.directive?
  styles : p.styles = zones.filterMap Zone.style?
  instanceScript : ∀ block ∈ p.instanceScript, .script false block ∈ zones
  moduleScript : ∀ block ∈ p.moduleScript, .script true block ∈ zones

structure Fresh (text : List Char) (first last : Nat) (zones : List Zone) : Prop where
  ascending : zones.Pairwise fun y z => y.span.stop ≤ z.span.start
  inside : ∀ z ∈ zones, first ≤ z.span.start ∧ z.span.stop ≤ last
  stand : ∀ z ∈ zones, z.Stands text

theorem Fresh.nil (text : List Char) (first last : Nat) : Fresh text first last [] :=
  ⟨.nil, by simp, by simp⟩

theorem Fresh.one {text : List Char} {z : Zone} {first last : Nat} (stands : z.Stands text)
    (lower : first ≤ z.span.start) (upper : z.span.stop ≤ last) : Fresh text first last [z] :=
  ⟨List.pairwise_singleton _ z, by simpa using ⟨lower, upper⟩, by simpa using stands⟩

theorem Fresh.wider {text : List Char} {zones : List Zone} {first last first' last' : Nat}
    (h : Fresh text first last zones) (lower : first' ≤ first) (upper : last ≤ last') :
    Fresh text first' last' zones :=
  ⟨h.ascending, fun z member => ⟨Nat.le_trans lower (h.inside z member).1, Nat.le_trans (h.inside z member).2 upper⟩,
    h.stand⟩

theorem Listed.fresh {text : List Char} {c d : Cursor} {as : List Attribute} (h : Listed c as d) {front : List Char}
    (reached : (Cursor.start text).Reads front c) :
    Fresh text c.offset d.offset ((as.filterMap Attribute.directive?).map Zone.directive) := by
  induction h generalizing front with
  | nil => exact .nil text _ _
  | @cons c start next d gap a as blank written rest ih =>
    have here := reached.trans blank
    obtain ⟨run, reads⟩ := written.reads
    have tail := ih (here.trans reads)
    have lower := blank.le
    have middle := reads.le
    cases written with
    | plain => exact tail.wider (by omega) (Nat.le_refl _)
    | @directive _ d' _ spelled =>
      have span : d'.span = ⟨start.offset, next.offset⟩ := by
        cases spelled
        rfl
      obtain ⟨more, later⟩ := rest.reads
      have upper := later.le
      refine ⟨List.pairwise_cons.mpr ⟨fun z member => ?_, tail.ascending⟩, fun z member => ?_, fun z member => ?_⟩
      · rw [Zone.span, span]
        exact (tail.inside z member).1
      · rcases List.mem_cons.mp member with rfl | member
        · simp only [Zone.span, span]
          omega
        · have := tail.inside z member
          omega
      · rcases List.mem_cons.mp member with rfl | member
        · exact .directive here spelled
        · exact tail.stand z member

/-- The scanner stands at a cut of the text, or at its end. -/
def Cursor.Reached (text : List Char) (c : Cursor) : Prop :=
  (∃ front, (Cursor.start text).Reads front c) ∨ c.rest = []

theorem Cursor.Reached.of_reads {text front run : List Char} {c d : Cursor} (here : (Cursor.start text).Reads front c)
    (reads : c.Reads run d) : d.Reached text :=
  .inl ⟨_, here.trans reads⟩

/-- A closing angle bracket stands at `lower` or behind it, and before `upper`. -/
def Bracket (text : List Char) (lower upper : Nat) : Prop :=
  ∃ before after, text = before ++ '>' :: after ∧ lower ≤ width before ∧ width before < upper

/-- What one item of the text does: it moves on and may add zones, which are the directives of one tag
or one block. The tag ends with an angle bracket unless the text ends there. -/
structure Adds (text : List Char) (p : Progress) (c : Cursor) (p' : Progress) (c' : Cursor) (more : List Zone) : Prop where
  reached : c'.Reached text
  order : c.offset ≤ c'.offset
  fresh : Fresh text c.offset c'.offset more
  directives : p'.directives = p.directives ++ more.filterMap Zone.directive?
  styles : p'.styles = p.styles ++ more.filterMap Zone.style?
  instanceScript : ∀ block ∈ p'.instanceScript, block ∈ p.instanceScript ∨ .script false block ∈ more
  moduleScript : ∀ block ∈ p'.moduleScript, block ∈ p.moduleScript ∨ .script true block ∈ more
  closed : ∀ d, .directive d ∈ more → Bracket text d.span.stop c'.offset ∨ c'.rest = []
  alone : ∀ z ∈ more, z.directive? = none → more = [z]

theorem Adds.move {text front run : List Char} {p p' : Progress} {c c' : Cursor}
    (here : (Cursor.start text).Reads front c) (reads : c.Reads run c') (directives : p'.directives = p.directives)
    (styles : p'.styles = p.styles) (instanceScript : p'.instanceScript = p.instanceScript)
    (moduleScript : p'.moduleScript = p.moduleScript) : Adds text p c p' c' [] where
  reached := .of_reads here reads
  order := reads.le
  fresh := .nil text _ _
  directives := by simpa using directives
  styles := by simpa using styles
  instanceScript _ old := .inl (instanceScript ▸ old)
  moduleScript _ old := .inl (moduleScript ▸ old)
  closed := nofun
  alone := nofun

namespace Scanned

variable {text : List Char} {p p' : Progress} {c c' : Cursor} {zones more : List Zone}

theorem start (text : List Char) : Scanned text {} 0 [] := by
  constructor <;> simp [Progress.directives, Node.directivesOf]

theorem grow (h : Scanned text p c.offset zones) (adds : Adds text p c p' c' more) :
    Scanned text p' c'.offset (zones ++ more) where
  ascending := by
    refine List.pairwise_append.mpr ⟨h.ascending, adds.fresh.ascending, fun y before z after => ?_⟩
    have := h.behind y before
    have := (adds.fresh.inside z after).1
    omega
  behind z member := by
    rcases List.mem_append.mp member with before | after
    · exact Nat.le_trans (h.behind z before) adds.order
    · exact (adds.fresh.inside z after).2
  stand z member := by
    rcases List.mem_append.mp member with before | after
    · exact h.stand z before
    · exact adds.fresh.stand z after
  directives := by rw [adds.directives, h.directives, List.filterMap_append]
  styles := by rw [adds.styles, h.styles, List.filterMap_append]
  instanceScript block member := by
    rcases adds.instanceScript block member with old | new
    · exact List.mem_append_left more (h.instanceScript block old)
    · exact List.mem_append_right zones new
  moduleScript block member := by
    rcases adds.moduleScript block member with old | new
    · exact List.mem_append_left more (h.moduleScript block old)
    · exact List.mem_append_right zones new

end Scanned

theorem Progress.addNode_blocks (p : Progress) (node : Node) :
    (p.addNode node).styles = p.styles ∧ (p.addNode node).instanceScript = p.instanceScript ∧
      (p.addNode node).moduleScript = p.moduleScript := by
  unfold Progress.addNode
  split <;> exact ⟨rfl, rfl, rfl⟩

/-- An end tag moves the directives of its element into a node and keeps their order. -/
theorem scanEndTag_keeps {p p' : Progress} {c after : Cursor} (h : scanEndTag p c = .ok (p', after)) :
    (∃ run, c.Reads run after) ∧ p'.directives = p.directives ∧ p'.styles = p.styles ∧
      p'.instanceScript = p.instanceScript ∧ p'.moduleScript = p.moduleScript := by
  unfold scanEndTag at h
  split at h
  · rename_i found
    split at h
    · cases h
    · rename_i tag children rest opened
      cases h
      refine ⟨⟨_, Cursor.breakAt?_reads found⟩, ?_, Progress.addNode_blocks _ _⟩
      rw [Progress.directives_addNode]
      simp [Progress.directives, opened, OpenTag.directives, Node.directives, Tag.directives]
  · cases h

theorem attributes_listed {c after : Cursor} {as : List Attribute} (h : c.attributes = .ok (as, after)) :
    Listed c as after :=
  scanAttributes_listed h

theorem scanBlock_adds {text : List Char} {p p' : Progress} {first c after : Cursor} {name : String}
    {front tag : List Char} (here : (Cursor.start text).Reads front first) (opening : first.Reads tag c)
    (h : scanBlock p first.offset name c = .ok (p', after)) :
    ∃ z, z.Stands text ∧ z.span = ⟨first.offset, after.offset⟩ ∧ z.directive? = none ∧ (∃ run, c.Reads run after) ∧
      p'.directives = p.directives ++ [z].filterMap Zone.directive? ∧
      p'.styles = p.styles ++ [z].filterMap Zone.style? ∧
      (∀ block ∈ p'.instanceScript, block ∈ p.instanceScript ∨ .script false block ∈ [z]) ∧
      ∀ block ∈ p'.moduleScript, block ∈ p.moduleScript ∨ .script true block ∈ [z] := by
  unfold scanBlock at h
  obtain ⟨⟨attributes, c'⟩, scanned, h⟩ := chain_ok.mp h
  obtain ⟨inner, byte, h⟩ := chain_ok.mp h
  obtain ⟨run, listed⟩ := (attributes_listed scanned).reads
  obtain ⟨x, _, close⟩ := Cursor.skipByte_reads byte
  have entered := (opening.trans listed).trans close
  split at h
  · rename_i body last found
    obtain ⟨close', content, mark, offset⟩ := (Cursor.breakAt?_reads found).split
    have whole : ∃ run, c.Reads run last := ⟨_, (listed.trans close).trans (Cursor.breakAt?_reads found)⟩
    have stands (shared : Bool) (lang : Option String) : Zone.Stands text
        (.script shared ⟨⟨first.offset, last.offset⟩, ⟨inner.offset, inner.offset + width body.toList⟩, lang⟩) := by
      rw [← offset]
      exact .script here entered (by simp) content mark (by simp)
    simp only at h
    split at h
    · cases h
      have styled := entered.trans (Cursor.breakAt?_reads found)
      exact ⟨.style ⟨first.offset, after.offset⟩, .style here styled (by simp), rfl, rfl, whole,
        by simp [Zone.directive?, Progress.directives], by simp [Zone.style?], fun _ old => .inl old, fun _ old => .inl old⟩
    · split at h
      · cases h
        exact ⟨_, stands true _, rfl, rfl, whole, by simp [Zone.directive?, Progress.directives],
          by simp [Zone.style?], fun _ old => .inl old, fun _ new => .inr (by cases new; exact List.mem_cons_self)⟩
      · cases h
        exact ⟨_, stands false _, rfl, rfl, whole, by simp [Zone.directive?, Progress.directives],
          by simp [Zone.style?], fun _ new => .inr (by cases new; exact List.mem_cons_self), fun _ old => .inl old⟩
  · cases h

theorem scanBlock_nodes {p p' : Progress} {start : Nat} {name : String} {c c' : Cursor}
    (h : scanBlock p start name c = .ok (p', c')) : p'.nodes = p.nodes ∧ p'.opened = p.opened := by
  unfold scanBlock at h
  obtain ⟨⟨attributes, last⟩, _, h⟩ := chain_ok.mp h
  obtain ⟨inner, _, h⟩ := chain_ok.mp h
  split at h
  · simp only at h
    split at h
    · cases h
      exact ⟨rfl, rfl⟩
    · split at h <;> cases h <;> exact ⟨rfl, rfl⟩
  · cases h

/-- The end of a start tag. Only at the end of the text does the scanner move past what it reads. -/
theorem scanAttributes_stops {fuel : Nat} {c d : Cursor} {as : List Attribute}
    (h : scanAttributes fuel c = .ok (as, d)) : d.rest = [] ∨ d.startsWith ">" = true ∨ d.startsWith "/>" = true := by
  induction fuel generalizing c as with
  | zero => cases h
  | succ fuel ih =>
    unfold scanAttributes at h
    simp only at h
    split at h
    · rename_i stops
      cases h
      simpa [or_assoc] using stops
    · obtain ⟨⟨first, next⟩, _, h⟩ := chain_ok.mp h
      obtain ⟨⟨more, last⟩, rest, h⟩ := chain_ok.mp h
      cases h
      exact ih rest

/-- A start tag is read up to its angle bracket, or the text ends and the scanner goes on one byte behind it. -/
theorem tagEnd_cases {d : Cursor} (stops : d.rest = [] ∨ d.startsWith ">" = true ∨ d.startsWith "/>" = true) :
    let after : Cursor := if d.startsWith "/>" = true then d.skip 2 else ⟨d.offset + 1, d.rest.drop 1⟩
    (∃ run, d.Reads (run ++ ['>']) after) ∨ d.startsWith "/>" = false ∧ d.rest = [] ∧ after = ⟨d.offset + 1, []⟩ := by
  intro after
  by_cases closing : d.startsWith "/>" = true
  · rw [show after = d.skip 2 from if_pos closing]
    exact .inl ⟨['/'], Cursor.skip_mark closing⟩
  · rw [show after = ⟨d.offset + 1, d.rest.drop 1⟩ from if_neg closing]
    rcases stops with empty | bracket | closing'
    · exact .inr ⟨by simpa using closing, empty, by rw [empty]; rfl⟩
    · obtain ⟨rest, split⟩ := List.isPrefixOf_iff_prefix.mp bracket
      have parts : d.rest = '>' :: d.rest.drop 1 := by rw [← split]; rfl
      exact .inl ⟨[], parts, rfl⟩
    · exact absurd closing' closing

theorem tagEnd_reached {text front : List Char} {d : Cursor} (here : (Cursor.start text).Reads front d)
    (stops : d.rest = [] ∨ d.startsWith ">" = true ∨ d.startsWith "/>" = true) :
    let after : Cursor := if d.startsWith "/>" = true then d.skip 2 else ⟨d.offset + 1, d.rest.drop 1⟩
    d.offset ≤ after.offset ∧ after.Reached text ∧ (Bracket text d.offset after.offset ∨ after.rest = []) := by
  intro after
  rcases tagEnd_cases stops with ⟨run, reads⟩ | ⟨-, -, ended⟩
  · obtain ⟨last, before, bracket, -⟩ := reads.split
    obtain ⟨whole, offset⟩ := (here.trans before).cut
    rw [bracket.1] at whole
    exact ⟨reads.le, .of_reads here reads, .inl ⟨_, _, whole, offset ▸ before.le, offset ▸ bracket.lt (by simp)⟩⟩
  · rw [show after = ⟨d.offset + 1, []⟩ from ended]
    exact ⟨Nat.le_succ _, .inr rfl, .inr rfl⟩

/-- The directives of a start tag are new zones, and no other list changes. -/
theorem Listed.adds {text front tag : List Char} {p p' : Progress} {c first last after : Cursor}
    {attributes : List Attribute} (listed : Listed first attributes last) (here : (Cursor.start text).Reads front c)
    (opening : c.Reads tag first) (le : last.offset ≤ after.offset) (reached : after.Reached text)
    (ended : Bracket text last.offset after.offset ∨ after.rest = [])
    (directives : p'.directives = p.directives ++ attributes.filterMap Attribute.directive?)
    (styles : p'.styles = p.styles) (instanceScript : p'.instanceScript = p.instanceScript)
    (moduleScript : p'.moduleScript = p.moduleScript) :
    Adds text p c p' after ((attributes.filterMap Attribute.directive?).map Zone.directive) := by
  obtain ⟨run, reads⟩ := listed.reads
  have fresh := listed.fresh (here.trans opening)
  have onlyDirectives : ((attributes.filterMap Attribute.directive?).map Zone.directive).filterMap
      Zone.directive? = attributes.filterMap Attribute.directive? := by
    rw [List.filterMap_map]
    exact List.filterMap_some
  have noStyles : ((attributes.filterMap Attribute.directive?).map Zone.directive).filterMap
      Zone.style? = [] := by
    simp [List.filterMap_eq_nil_iff, Zone.style?]
  refine ⟨reached, Nat.le_trans (opening.trans reads).le le, fresh.wider opening.le le, ?_, ?_,
    fun _ old => .inl (instanceScript ▸ old), fun _ old => .inl (moduleScript ▸ old), fun d member => ?_,
    fun z member block => ?_⟩
  · rw [directives, onlyDirectives]
  · rw [styles, noStyles, List.append_nil]
  · rcases ended with ⟨before, behind, cut, lower, upper⟩ | none
    · exact .inl ⟨before, behind, cut, Nat.le_trans (fresh.inside _ member).2 lower, upper⟩
    · exact .inr none
  · obtain ⟨d, _, rfl⟩ := List.mem_map.mp member
    cases block

/-- A start tag adds a block and no tag, or zones behind its angle bracket. -/
theorem scanStartTag_adds {text front : List Char} {p p' : Progress} {c c' : Cursor}
    (here : (Cursor.start text).Reads front c) (h : scanStartTag p c = .ok (p', c')) :
    ∃ more, Adds text p c p' c' more ∧
      (p'.nodes = p.nodes ∧ p'.opened = p.opened ∨ ∀ z ∈ more, (c.skip 1).offset ≤ z.span.start) := by
  unfold scanStartTag at h
  simp only at h
  generalize (fun x => !Text.isBlank x && decide (x ≠ '>') && decide (x ≠ '/')) = ends at h
  have opening := (c.skip_reads 1).trans ((c.skip 1).takeWhile_reads ends)
  split at h
  · obtain ⟨z, stands, span, block, ⟨run, reads⟩, directives, styles, instanceScript, moduleScript⟩ :=
      scanBlock_adds here opening h
    have whole := opening.trans reads
    refine ⟨[z], ⟨.of_reads here whole, whole.le, ?_, directives, styles, instanceScript, moduleScript, ?_, ?_⟩,
      .inl (scanBlock_nodes h)⟩
    · exact .one stands (Nat.le_of_eq (by rw [span])) (Nat.le_of_eq (by rw [span]))
    · intro d member
      rw [← List.mem_singleton.mp member] at block
      cases block
    · intro y member _
      rw [List.mem_singleton.mp member]
  · obtain ⟨⟨attributes, last⟩, scanned, h⟩ := chain_ok.mp h
    have listed := attributes_listed scanned
    obtain ⟨run, reads⟩ := listed.reads
    have entered := opening.trans reads
    have behind : ∀ z ∈ (attributes.filterMap Attribute.directive?).map Zone.directive, (c.skip 1).offset ≤ z.span.start :=
      fun z member => Nat.le_trans ((c.skip 1).takeWhile_reads ends).le ((listed.fresh (here.trans opening)).inside z member).1
    simp only at h
    obtain ⟨le, reached, ended⟩ := tagEnd_reached (here.trans entered) (scanAttributes_stops scanned)
    generalize (if last.startsWith "/>" = true then last.skip 2
      else (⟨last.offset + 1, last.rest.drop 1⟩ : Cursor)) = after at h le reached ended
    split at h
    · cases h
      have kept := Progress.addNode_blocks p
      refine ⟨_, listed.adds here opening le reached ended ?_ (kept _).1 (kept _).2.1 (kept _).2.2, .inr behind⟩
      rw [Progress.directives_addNode]
      simp [Node.directives, Node.directivesOf, Tag.directives]
    · cases h
      refine ⟨_, listed.adds here opening le reached ended ?_ rfl rfl rfl, .inr behind⟩
      simp [Progress.directives, OpenTag.directives, Node.directivesOf, Tag.directives]

theorem scanItem_adds {text front : List Char} {p p' : Progress} {c c' : Cursor}
    (here : (Cursor.start text).Reads front c) (h : scanItem p c = .ok (p', c')) : ∃ more, Adds text p c p' c' more := by
  unfold scanItem at h
  split at h
  · split at h
    · cases h
      exact ⟨[], .move here (Cursor.breakAt?_reads ‹_›) rfl rfl rfl rfl⟩
    · cases h
  · split at h
    · obtain ⟨⟨run, reads⟩, directives, styles, instanceScript, moduleScript⟩ := scanEndTag_keeps h
      exact ⟨[], .move here reads directives styles instanceScript moduleScript⟩
    · split at h
      · obtain ⟨more, adds, _⟩ := scanStartTag_adds here h
        exact ⟨more, adds⟩
      · split at h
        · obtain ⟨⟨inner, last⟩, inside, h⟩ := chain_ok.mp h
          cases h
          exact ⟨[], .move here ((c.skip_reads 1).trans (braced_reads inside)) rfl rfl rfl rfl⟩
        · cases h
          exact ⟨[], .move here (c.skip_reads 1) rfl rfl rfl rfl⟩

theorem Scanned.finish {text : List Char} {p : Progress} {offset : Nat} {zones : List Zone} {doc : Document}
    (h : Scanned text p offset zones) (done : p.finish = .ok doc) : Zoned text doc zones := by
  unfold Progress.finish at done
  split at done
  · rename_i closed
    cases done
    refine ⟨h.ascending, h.stand, ?_, h.styles, h.instanceScript, h.moduleScript⟩
    have none : p.opened = [] := by simpa using closed
    rw [← h.directives, Progress.directives, none]
    simp [Document.directives, Document.tags, Node.directives_tagsOf]
  · cases done

/-- What the scanner reaches on a text, item by item. -/
inductive Scans (text : List Char) : Progress → Cursor → Prop where
  | start : Scans text {} (Cursor.start text)
  | item {p p' : Progress} {c c' : Cursor} : Scans text p c → c.rest ≠ [] → scanItem p c = .ok (p', c') → Scans text p' c'

/-- A scan that returns a document has reached the end of the text. -/
theorem scanItems_scans {text : List Char} {fuel : Nat} {p : Progress} {c : Cursor} {doc : Document}
    (here : Scans text p c) (h : scanItems fuel p c = .ok doc) : ∃ p c, Scans text p c ∧ p.finish = .ok doc := by
  induction fuel generalizing p c with
  | zero => cases h
  | succ fuel ih =>
    unfold scanItems at h
    split at h
    · exact ⟨p, c, here, h⟩
    · next more =>
      obtain ⟨⟨p', c'⟩, item, h⟩ := chain_ok.mp h
      exact ih (here.item (by simpa using more) item) h

theorem scan_scans {text : String} {doc : Document} (h : scan text = .ok doc) :
    ∃ p c, Scans text.toList p c ∧ p.finish = .ok doc :=
  scanItems_scans .start h

namespace Scans

variable {text : List Char} {p p' : Progress} {c c' : Cursor}

theorem reached (h : Scans text p c) : c.Reached text := by
  induction h with
  | start => exact .inl ⟨[], .refl _⟩
  | item _ more item here =>
    rcases here with ⟨front, here⟩ | empty
    · obtain ⟨_, adds⟩ := scanItem_adds here item
      exact adds.reached
    · exact absurd empty more

theorem adds (h : Scans text p c) (more : c.rest ≠ []) (item : scanItem p c = .ok (p', c')) :
    (∃ front, (Cursor.start text).Reads front c) ∧ ∃ zones, Adds text p c p' c' zones := by
  rcases h.reached with ⟨front, here⟩ | empty
  · exact ⟨⟨front, here⟩, scanItem_adds here item⟩
  · exact absurd empty more

theorem scanned (h : Scans text p c) : ∃ zones, Scanned text p c.offset zones := by
  induction h with
  | start => exact ⟨[], .start text⟩
  | item before more item ih =>
    obtain ⟨zones, valid⟩ := ih
    obtain ⟨_, new, adds⟩ := before.adds more item
    exact ⟨_, valid.grow adds⟩

end Scans

theorem scan_zoned {text : String} {doc : Document} (h : scan text = .ok doc) : ∃ zones, Zoned text.toList doc zones := by
  obtain ⟨p, c, scans, done⟩ := scan_scans h
  obtain ⟨zones, valid⟩ := scans.scanned
  exact ⟨zones, valid.finish done⟩

end SvelteLens.Markup
