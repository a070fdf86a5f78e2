import SvelteLens.Proofs.Directive.Course
import SvelteLens.Proofs.Markup.Frames
import SvelteLens.Proofs.Projection.Causes
import SvelteLens.Proofs.Projection.Regions
import SvelteLens.Proofs.Script.Course

/-! The commands of a projection are not in each other's way. Each of them lies in one zone of the
document or inserts between the zones. Zones share no byte, and inside one zone the commands go from
left to right. -/
namespace SvelteLens

open Text (width)

namespace Markup

/-- The zones that a projection edits. A script block that was replaced by a later one stays as it is. -/
def Zone.Held (doc : Document) : Zone → Prop
  | .directive _ | .style _ => True
  | .script true block => doc.moduleScript = some block
  | .script false block => doc.instanceScript = some block

theorem Zone.Held.listed {doc : Document} {shared : Bool} {block : ScriptBlock} (held : (Zone.script shared block).Held doc) :
    block ∈ doc.scripts := by
  cases shared with
  | false => exact List.mem_append_left _ (Option.mem_toList.mpr held)
  | true => exact List.mem_append_right _ (Option.mem_toList.mpr held)

/-- The turn at which a zone is edited. -/
def Zone.turn : Zone → Nat
  | .script true _ => 0
  | .script false _ => 1
  | .style _ => 2
  | .directive _ => 3

end Markup

namespace Projection

open Edit Markup

variable {source : String} {doc : Document} {zones : List Zone} {reader : Script.Reader}

/-- An offset that lies strictly inside no zone that is edited. -/
def Between (doc : Document) (zones : List Zone) (offset : Nat) : Prop :=
  ∀ z ∈ zones, z.Held doc → z.span.Apart (Span.empty offset)

/-- A command inside a zone of a kind, or an insertion between the zones. -/
inductive Belongs (doc : Document) (zones : List Zone) (kind : Zone → Prop) (c : Command) : Prop where
  | inside {z : Zone} : z ∈ zones → z.Held doc → kind z → z.span.covers c.reach = true → Belongs doc zones kind c
  | between {offset : Nat} : c.reach = Span.empty offset → Between doc zones offset → Belongs doc zones kind c

theorem Belongs.imp {kind kind' : Zone → Prop} {c : Command} (h : Belongs doc zones kind c)
    (weaker : ∀ z, kind z → kind' z) : Belongs doc zones kind' c := by
  cases h with
  | inside member held kind covers => exact .inside member held (weaker _ kind) covers
  | between reach between => exact .between reach between

theorem apart_of_covers {s t u v : Span} (apart : s.Apart t) (left : s.covers u = true) (right : t.covers v = true) :
    u.Apart v := by
  rw [Span.covers_iff] at left right
  unfold Span.Apart at apart ⊢
  omega

theorem Belongs.apart {kind kind' : Zone → Prop} {c d : Command} (zoned : Zoned source.toList doc zones)
    (h : Belongs doc zones kind c) (k : Belongs doc zones kind' d) (differ : ∀ z, kind z → ¬kind' z) :
    c.reach.Apart d.reach := by
  have whole (o : Nat) : (Span.empty o).covers (Span.empty o) = true := Span.covers_iff.mpr ⟨Nat.le_refl o, Nat.le_refl o⟩
  cases h with
  | @inside y member held isKind covers =>
    cases k with
    | @inside z member' _ isKind' covers' =>
      rcases zoned.apart member member' with rfl | apart
      · exact absurd isKind' (differ _ isKind)
      · exact apart_of_covers apart covers covers'
    | between reach between =>
      rw [reach]
      exact apart_of_covers (between y member held) covers (whole _)
  | between reach between =>
    cases k with
    | @inside z member held _ covers =>
      rw [reach]
      exact (apart_of_covers (between z member held) covers (whole _)).symm
    | between reach' =>
      rw [reach, reach']
      exact Span.apart_empty _ _

/-- Commands that can be made one after the other, in zones whose turn is from `first` on and before `last`. -/
structure Fits (text : List Char) (doc : Document) (zones : List Zone) (first last : Nat) (calls : List Command) :
    Prop where
  valid : ∀ c ∈ calls, c.Valid text
  belongs : ∀ c ∈ calls, Belongs doc zones (fun z => first ≤ z.turn ∧ z.turn < last) c
  apart : calls.Pairwise fun c d => c.reach.Apart d.reach

namespace Fits

variable {first middle last : Nat} {calls more : List Command}

theorem append (zoned : Zoned source.toList doc zones) (h : Fits source.toList doc zones first middle calls)
    (k : Fits source.toList doc zones middle last more) (low : first ≤ middle) (high : middle ≤ last) :
    Fits source.toList doc zones first last (calls ++ more) where
  valid c member := (List.mem_append.mp member).elim (h.valid c) (k.valid c)
  belongs c member := by
    rcases List.mem_append.mp member with member | member
    · exact (h.belongs c member).imp fun z turn => ⟨turn.1, Nat.lt_of_lt_of_le turn.2 high⟩
    · exact (k.belongs c member).imp fun z turn => ⟨Nat.le_trans low turn.1, turn.2⟩
  apart := by
    refine List.pairwise_append.mpr ⟨h.apart, k.apart, fun c before d after => ?_⟩
    exact (h.belongs c before).apart zoned (k.belongs d after) fun z turn turn' =>
      absurd turn'.1 (Nat.not_le.mpr turn.2)

theorem of_between {text : List Char} (turn : Nat)
    (inserts : ∀ c ∈ calls, ∃ offset, InsertsAt offset c ∧ Text.isBoundary text offset = true ∧ Between doc zones offset) :
    Fits text doc zones turn turn calls where
  valid c member := by
    obtain ⟨offset, inserts, boundary, _⟩ := inserts c member
    exact inserts.valid boundary
  belongs c member := by
    obtain ⟨offset, inserts, _, between⟩ := inserts c member
    exact .between inserts.reach between
  apart := by
    refine List.pairwise_of_forall_mem_list fun c member d member' => ?_
    obtain ⟨offset, inserts', _⟩ := inserts c member
    obtain ⟨offset', inserts'', _⟩ := inserts d member'
    rw [inserts'.reach, inserts''.reach]
    exact Span.apart_empty _ _

theorem nil (text : List Char) : Fits text doc zones first last [] := ⟨nofun, nofun, .nil⟩

theorem of_zone {text : List Char} {z : Zone} (member : z ∈ zones) (held : z.Held doc)
    (valid : ∀ c ∈ calls, c.Valid text) (covered : ∀ c ∈ calls, z.span.covers c.reach = true)
    (apart : calls.Pairwise fun c d => c.reach.Apart d.reach) : Fits text doc zones z.turn (z.turn + 1) calls :=
  ⟨valid, fun c inside => .inside member held ⟨Nat.le_refl _, Nat.lt_succ_self _⟩ (covered c inside), apart⟩

end Fits

section Scripts

theorem scriptPlan_advances (reported : Reads reader source doc Script.Outline.Reported) {block : ScriptBlock}
    (listed : block ∈ doc.scripts) (holds : block.Holds source) (role : Script.Role) (known : List String) :
    Plan.Advances source.toList block.content.start (scriptPlan reader source role known block).1 block.content.stop := by
  obtain ⟨front, run, back, whole, placed, slice⟩ := holds.cut
  unfold scriptPlan
  split
  · next outline read =>
    have agrees := reported block listed outline read
    rw [slice, Option.getD_some, String.toList_ofList] at agrees
    rw [placed]
    exact Script.adaptationPlan_advances whole agrees role known
  · exact .nil holds.content

theorem blockCommands_fits (reported : Reads reader source doc Script.Outline.Reported)
    (zoned : Zoned source.toList doc zones) {shared : Bool} {block : ScriptBlock}
    (member : .script shared block ∈ zones) (held : (Zone.script shared block).Held doc)
    (role : Script.Role) (known : List String) :
    Fits source.toList doc zones (Zone.script shared block).turn ((Zone.script shared block).turn + 1)
      (blockCommands reader source role known block) := by
  have stands := zoned.stand _ member
  have holds := stands.holds
  have opens := holds.opening
  have closes := holds.closing
  have content := holds.content
  obtain ⟨start, stop⟩ := stands.boundaries
  obtain ⟨start', stop'⟩ := stands.content_boundaries
  have inner := scriptPlan_advances reported held.listed holds role known
  have tags : (tagPlan block).commands =
      [.remove ⟨block.span.start, block.content.start⟩, .remove ⟨block.content.stop, block.span.stop⟩] := rfl
  refine Fits.of_zone member held (fun c listed => ?_) (fun c listed => ?_) ?_
  · rcases List.mem_append.mp listed with tag | adapted
    · rw [tags, List.mem_pair] at tag
      rcases tag with rfl | rfl
      · exact .remove start start' (Nat.le_of_lt opens)
      · exact .remove stop' stop (Nat.le_of_lt closes)
    · exact inner.valid c adapted
  · rcases List.mem_append.mp listed with tag | adapted
    · rw [tags, List.mem_pair] at tag
      rcases tag with rfl | rfl
      · exact Span.covers_iff.mpr ⟨Nat.le_refl _, Nat.le_trans content (Nat.le_of_lt closes)⟩
      · exact Span.covers_iff.mpr ⟨Nat.le_trans (Nat.le_of_lt opens) content, Nat.le_refl _⟩
    · exact inner.covered (Nat.le_of_lt opens) (Nat.le_of_lt closes) adapted
  · refine List.pairwise_append.mpr ⟨?_, inner.sound.apart, fun c tag d adapted => ?_⟩
    · rw [tags, List.pairwise_pair]
      exact .inl content
    · rw [tags, List.mem_pair] at tag
      obtain ⟨lower, upper⟩ := inner.inside d adapted
      rcases tag with rfl | rfl
      · exact .inl lower
      · exact .inr upper

theorem scriptCommands_fits (reported : Reads reader source doc Script.Outline.Reported)
    (zoned : Zoned source.toList doc zones) (shared : Bool) {block : Option ScriptBlock}
    (own : ∀ b ∈ block, .script shared b ∈ zones ∧ (Zone.script shared b).Held doc) {turn : Nat}
    (same : ∀ b, (Zone.script shared b).turn = turn) (role : Script.Role) (known : List String) :
    Fits source.toList doc zones turn (turn + 1) (scriptCommands reader source role known block) := by
  cases block with
  | none => exact .nil _
  | some block =>
    obtain ⟨member, held⟩ := own block rfl
    have fits := blockCommands_fits reported zoned member held role known
    rwa [same] at fits

end Scripts

theorem stylePlan_commands (styles : List Span) : (stylePlan styles).commands = styles.map Command.remove := by
  simp [stylePlan, Plan.commands, List.filterMap_map]

theorem stylePlan_fits (zoned : Zoned source.toList doc zones) :
    Fits source.toList doc zones 2 3 (stylePlan doc.styles).commands := by
  rw [stylePlan_commands]
  refine ⟨fun c member => ?_, fun c member => ?_, ?_⟩
  · obtain ⟨s, listed, rfl⟩ := List.mem_map.mp member
    have stands := zoned.stand _ (zoned.style_mem listed)
    exact .remove stands.boundaries.1 stands.boundaries.2 (Nat.le_of_lt stands.proper)
  · obtain ⟨s, listed, rfl⟩ := List.mem_map.mp member
    exact .inside (zoned.style_mem listed) trivial ⟨Nat.le_refl _, Nat.le_refl _⟩
      (Span.covers_iff.mpr ⟨Nat.le_refl _, Nat.le_refl _⟩)
  · exact List.pairwise_map.mpr (zoned.styles_ascending.imp .inl)

section Wrapping

/-- The blocks of a document are its zones that are edited, apart from the directives. -/
theorem mem_blocks (zoned : Zoned source.toList doc zones) {span : Span} :
    span ∈ blocks doc ↔ ∃ z ∈ zones, z.Held doc ∧ z.directive? = none ∧ z.span = span := by
  rw [blocks, inOrder, List.mem_mergeSort, List.mem_append, List.mem_map]
  constructor
  · rintro (⟨block, member, rfl⟩ | member)
    · rcases List.mem_append.mp member with own | shared
      · have found := Option.mem_toList.mp own
        exact ⟨_, zoned.instanceScript block found, found, rfl, rfl⟩
      · have found := Option.mem_toList.mp shared
        exact ⟨_, zoned.moduleScript block found, found, rfl, rfl⟩
    · exact ⟨_, zoned.style_mem member, trivial, rfl, rfl⟩
  · rintro ⟨z, member, held, kind, rfl⟩
    cases z with
    | directive => cases kind
    | style span =>
      rw [zoned.styles]
      exact .inr (List.mem_filterMap.mpr ⟨_, member, rfl⟩)
    | script shared block =>
      cases shared with
      | true => exact .inl ⟨block, List.mem_append_right _ (Option.mem_toList.mpr held), rfl⟩
      | false => exact .inl ⟨block, List.mem_append_left _ (Option.mem_toList.mpr held), rfl⟩

theorem blocks_bounded (zoned : Zoned source.toList doc zones) : ∀ block ∈ blocks doc, Bounded source.toList block := by
  intro block member
  obtain ⟨z, zone, _, _, rfl⟩ := (mem_blocks zoned).mp member
  have stands := zoned.stand z zone
  exact ⟨stands.boundaries.1, stands.boundaries.2, stands.proper⟩

theorem blocks_ascending (zoned : Zoned source.toList doc zones) : (blocks doc).Pairwise fun s t => s.stop ≤ t.start := by
  have differ {y z : Zone} (first : y ∈ zones) (second : z ∈ zones) (turns : y.turn ≠ z.turn) : y.span.Apart z.span :=
    (zoned.apart first second).resolve_left fun same => turns (congrArg Zone.turn same)
  have scripts : (doc.scripts.map (·.span)).Pairwise Span.Apart := by
    unfold Document.scripts
    cases own : doc.instanceScript with
    | none => cases doc.moduleScript <;> simp
    | some block =>
      cases shared : doc.moduleScript with
      | none => simp
      | some block' =>
        simp only [Option.toList_some, List.singleton_append, List.map_cons, List.map_nil, List.pairwise_pair]
        exact differ (zoned.instanceScript block own) (zoned.moduleScript block' shared) (by simp [Zone.turn])
  refine inOrder_ascending
    (List.pairwise_append.mpr ⟨scripts, zoned.styles_ascending.imp .inl, fun s first t second => ?_⟩) fun s member => ?_
  · obtain ⟨block, listed, rfl⟩ := List.mem_map.mp first
    obtain ⟨shared, zone⟩ := zoned.script_mem listed
    exact differ zone (zoned.style_mem second) (by cases shared <;> simp [Zone.turn])
  · exact (blocks_bounded zoned s (List.mem_mergeSort.mpr member)).order

theorem blocks_ahead (zoned : Zoned source.toList doc zones) : Ahead source.toList (blocks doc) (blocks doc) 0 :=
  .all (blocks_bounded zoned) (blocks_ascending zoned)

theorem directive_apart (zoned : Zoned source.toList doc zones) {d : Directive} (member : .directive d ∈ zones) {z : Zone}
    (zone : z ∈ zones) (kind : z.directive? = none) : d.span.Apart z.span := by
  rcases zoned.apart member zone with rfl | apart
  · cases kind
  · exact apart

theorem bracket_before (zoned : Zoned source.toList doc zones) (framed : Framed source.toList doc zones) {d : Directive}
    (member : .directive d ∈ zones) {z : Zone} (zone : z ∈ zones) (kind : z.directive? = none)
    (before : d.span.stop ≤ z.span.start) : Bracket source.toList d.span.stop z.span.start := by
  rcases related_of_pairwise (zoned.ascending.and framed.separated) member zone with rfl | ⟨_, separated⟩ | ⟨turned, _⟩
  · cases kind
  · exact separated d rfl kind
  · have turned : z.span.stop ≤ d.span.start := turned
    have filled := (zoned.stand z zone).proper
    have filled' : d.span.start < d.span.stop := (zoned.stand _ member).proper
    omega

section Directive

variable {start stop offset : Nat} {d : Directive}

/-- No directive crosses the start of a stretch of markup. -/
theorem Region.enters (zoned : Zoned source.toList doc zones) (region : Region source.toList (blocks doc) start stop)
    (member : .directive d ∈ zones) : d.span.stop ≤ start ∨ start ≤ d.span.start := by
  rcases region.first with rfl | ⟨block, inside, rfl⟩
  · exact .inr (Nat.zero_le _)
  · obtain ⟨z, zone, _, kind, rfl⟩ := (mem_blocks zoned).mp inside
    have filled := (zoned.stand z zone).proper
    rcases directive_apart zoned member zone kind with before | behind
    · exact .inl (Nat.le_trans before (Nat.le_of_lt filled))
    · exact .inr behind

/-- Where only blanks follow in a stretch of markup, a directive has ended, for the angle bracket of its tag
stands before the next block. Only the end of the text can cut a directive off. -/
theorem Region.leaves (zoned : Zoned source.toList doc zones) (framed : Framed source.toList doc zones)
    (region : Region source.toList (blocks doc) start stop) (member : .directive d ∈ zones)
    (ends : d.span.stop ≤ Text.contentEnd source.toList) (blank : Text.BlankBetween source.toList offset stop) :
    d.span.stop ≤ offset ∨ stop ≤ d.span.start := by
  rcases region.last with rfl | ⟨block, inside, rfl⟩
  · exact .inl (Nat.le_trans ends blank.contentEnd_le)
  · obtain ⟨z, zone, _, kind, rfl⟩ := (mem_blocks zoned).mp inside
    have filled := (zoned.stand z zone).proper
    rcases directive_apart zoned member zone kind with before | behind
    · obtain ⟨front, back, whole, low, high⟩ := bracket_before zoned framed member zone kind before
      refine .inl (Nat.le_of_not_lt fun inside => ?_)
      have impossible := blank.blank_of_mem whole (Nat.le_trans (Nat.le_of_lt inside) low) high
      exact absurd impossible (by decide)
    · exact .inr (Nat.le_trans (Nat.le_of_lt filled) behind)

end Directive

/-- The edges of a stretch of markup lie strictly inside no zone that is edited. A directive starts with a
letter, so its start is not among the blanks before an edge, and its stop is not among those behind one. -/
theorem Edge.between (zoned : Zoned source.toList doc zones) (framed : Framed source.toList doc zones)
    (ends : ∀ d ∈ doc.directives, d.span.stop ≤ Text.contentEnd source.toList) {start stop offset : Nat}
    (region : Region source.toList (blocks doc) start stop) (edge : Edge source.toList start stop offset) :
    Between doc zones offset := by
  have lower := edge.lower
  have upper := edge.upper
  intro z member held
  cases kind : z.directive? with
  | none =>
    rcases region.outside z.span ((mem_blocks zoned).mpr ⟨z, member, held, kind, rfl⟩) with before | behind
    · exact .inl (Nat.le_trans before lower)
    · exact .inr (Nat.le_trans upper behind)
  | some d =>
    obtain rfl : z = .directive d := by cases z <;> simp_all [Zone.directive?]
    rcases region.enters zoned member with before | behind
    · exact .inl (Nat.le_trans before lower)
    · rcases edge.blank with blank | blank
      · obtain ⟨front, x, back, whole, first, letter⟩ := (zoned.stand _ member).directive_starts
        refine .inr (Nat.le_of_not_lt fun inside => ?_)
        have impossible := blank.blank_of_mem whole (first ▸ behind) (first ▸ inside)
        rw [letter] at impossible
        cases impossible
      · have listed : d ∈ doc.directives := by
          rw [zoned.directives]
          exact List.mem_filterMap.mpr ⟨_, member, rfl⟩
        rcases region.leaves zoned framed member (ends d listed) blank with before | behind
        · exact .inl before
        · exact .inr (Nat.le_trans upper behind)

theorem markupPlan_fits (zoned : Zoned source.toList doc zones) (framed : Framed source.toList doc zones)
    (ends : ∀ d ∈ doc.directives, d.span.stop ≤ Text.contentEnd source.toList) (turn : Nat) :
    Step.fault ∉ markupPlan source 0 (blocks doc) ∧
      Fits source.toList doc zones turn turn (markupPlan source 0 (blocks doc)).commands := by
  obtain ⟨faultless, wraps⟩ := markupPlan_wraps (blocks_ahead zoned)
  refine ⟨faultless, .of_between turn fun c member => ?_⟩
  obtain ⟨start, stop, offset, region, edge, inserts⟩ := wraps c member
  exact ⟨offset, inserts, edge.boundary, edge.between zoned framed ends region⟩

end Wrapping

section Sites

/-- Every site is spelled out in the text, and its tag has its content between two seams. -/
theorem site_sound (zoned : Zoned source.toList doc zones) (framed : Framed source.toList doc zones)
    (small : source.utf8ByteSize < offsetBound) {site : Directive.Site} (member : site ∈ sites source doc) :
    Plan.Sound source.toList site.plan ∧
      ∀ c ∈ site.plan.commands, Belongs doc zones (· = .directive site.directive) c := by
  have listed := zoned.directive_mem (site_directive member)
  obtain ⟨placed, tag, inTag⟩ := List.mem_flatMap.mp member
  obtain ⟨d, _, rfl⟩ := List.mem_map.mp inTag
  have spelled : Directive.Site.Spelled ⟨source, d, placed.tag, placed.enclosing⟩ :=
    ⟨zoned.directive_ordered (site_directive member), (zoned.stand _ listed).sharp, small⟩
  have seams := framed.contents placed tag
  obtain ⟨sound, touches⟩ := spelled.plan_sound fun content inside =>
    ⟨(seams content inside).1.boundary, (seams content inside).2.boundary,
      (seams content inside).1.clear _ listed, (seams content inside).2.clear _ listed⟩
  refine ⟨sound, fun c made => ?_⟩
  rcases touches c made with covered | ⟨content, inside, reach | reach⟩
  · exact .inside listed trivial rfl covered
  · exact .between reach fun z zone _ => (seams content inside).1.clear z zone
  · exact .between reach fun z zone _ => (seams content inside).2.clear z zone

theorem sites_directives (source : String) (doc : Document) : (sites source doc).map (·.directive) = doc.directives := by
  simp [sites, Document.directives, List.map_flatMap, Function.comp_def]

/-- The rules of different directives are apart. -/
theorem sites_fit (zoned : Zoned source.toList doc zones) (framed : Framed source.toList doc zones)
    (small : source.utf8ByteSize < offsetBound) :
    Fits source.toList doc zones 3 4 ((sites source doc).flatMap (·.plan.commands)) := by
  have ascending : (sites source doc).Pairwise fun s t => s.directive.span.stop ≤ t.directive.span.start := by
    have directives := zoned.directives_ascending
    rw [← sites_directives source doc] at directives
    exact List.pairwise_map.mp directives
  refine ⟨fun c member => ?_, fun c member => ?_, List.pairwise_flatMap.mpr ⟨fun site member => ?_, ?_⟩⟩
  · obtain ⟨site, listed, made⟩ := List.mem_flatMap.mp member
    exact (site_sound zoned framed small listed).1.valid c made
  · obtain ⟨site, listed, made⟩ := List.mem_flatMap.mp member
    refine ((site_sound zoned framed small listed).2 c made).imp ?_
    rintro z rfl
    exact ⟨Nat.le_refl _, Nat.le_refl _⟩
  · exact (site_sound zoned framed small member).1.apart
  · refine ascending.imp_of_mem fun {s t} first second before c made d made' => ?_
    refine ((site_sound zoned framed small first).2 c made).apart zoned ((site_sound zoned framed small second).2 d made') ?_
    rintro z rfl same
    have proper := (zoned.stand _ (zoned.directive_mem (site_directive first))).proper
    rw [← Zone.directive.inj same] at before
    exact absurd proper (Nat.not_lt.mpr before)

end Sites

/-- All commands of a projection fit together. -/
theorem commands_fit (reported : Reads reader source doc Script.Outline.Reported) (small : source.utf8ByteSize < offsetBound)
    (zoned : Zoned source.toList doc zones) (framed : Framed source.toList doc zones)
    (ends : ∀ d ∈ doc.directives, d.span.stop ≤ Text.contentEnd source.toList) (footer : String) :
    Fits source.toList doc zones 0 4
      (bodyCommands reader source doc ++ [.insertAfter (width source.toList) footer]) := by
  have header : Fits source.toList doc zones 0 0 [.insertBefore 0 header] := by
    refine .of_between 0 fun c member => ?_
    obtain rfl := List.mem_singleton.mp member
    exact ⟨0, .before _, Text.isBoundary_iff.mpr ⟨[], _, rfl, rfl⟩, fun z _ _ => .inr (Nat.zero_le _)⟩
  have last : Fits source.toList doc zones 4 4 [.insertAfter (width source.toList) footer] := by
    refine .of_between 4 fun c member => ?_
    obtain rfl := List.mem_singleton.mp member
    exact ⟨_, .after _, Text.isBoundary_iff.mpr ⟨_, [], (List.append_nil _).symm, rfl⟩,
      fun z zone _ => .inl (Text.le_width_of_isBoundary (zoned.stand z zone).boundaries.2)⟩
  have shared : Fits source.toList doc zones 0 1 (scriptCommands reader source .shared [] doc.moduleScript) :=
    scriptCommands_fits reported zoned true (fun block found => ⟨zoned.moduleScript block found, found⟩)
      (fun _ => rfl) _ _
  have own : Fits source.toList doc zones 1 2 (scriptCommands reader source .perInstance
      (knownAfter reader source .shared [] doc.moduleScript) doc.instanceScript) :=
    scriptCommands_fits reported zoned false (fun block found => ⟨zoned.instanceScript block found, found⟩)
      (fun _ => rfl) _ _
  have scripts := ((header.append zoned shared (by decide) (by decide)).append zoned own (by decide) (by decide))
  have layout := (scripts.append zoned (stylePlan_fits zoned) (by decide) (by decide)).append zoned
    (markupPlan_fits zoned framed ends 3).2 (by decide) (by decide)
  exact (layout.append zoned (sites_fit zoned framed small) (by decide) (by decide)).append zoned last (by decide) (by decide)

end Projection
end SvelteLens
