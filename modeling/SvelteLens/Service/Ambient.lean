import SvelteLens.Path

/-! The ambient declarations that every project comes with: the helpers that projected
components call, and the typing of projected markup. They are served from memory under a
directory of their own and hide whatever the disk has there. -/
namespace SvelteLens.Service.Ambient

def directory : Path := ⟨"/__svelte_shims__"⟩

/-- Every helper that a projection calls is declared here. -/
def helpers : String :=
  String.join [
    "// Helpers referenced by projected components.\n",
    "\n",
    "declare type __sveltets_1_Constructor<T> = new (...args: any[]) => T;\n",
    "\n",
    "declare const __sveltets_1_AnimationMove: \x7b from: DOMRect; to: DOMRect \x7d;\n",
    "\n",
    "declare function __sveltets_1_ensureAction<T>(action: T): \x7b\x7d;\n",
    "declare function __sveltets_1_ensureTransition<T>(transition: T): \x7b\x7d;\n",
    "declare function __sveltets_1_ensureAnimation<T>(animation: T): \x7b\x7d;\n",
    "\n",
    "declare function __sveltets_1_ensureType<T>(type: __sveltets_1_Constructor<T>, value: T): \x7b\x7d;\n",
    "declare function __sveltets_1_ensureType<T1, T2>(\n",
    "  type1: __sveltets_1_Constructor<T1>,\n",
    "  type2: __sveltets_1_Constructor<T2>,\n",
    "  value: T1 | T2\n",
    "): \x7b\x7d;\n",
    "\n",
    "declare function __sveltets_1_empty(...expressions: any[]): \x7b\x7d;\n",
    "declare function __sveltets_1_instanceOf<T>(type: __sveltets_1_Constructor<T>): T;\n",
    "declare function __sveltets_1_invalidate<T>(getValue: () => T): T;\n",
    "\n",
    "declare function __sveltets_1_mapElementTag<K extends keyof HTMLElementTagNameMap>(\n",
    "  tag: K\n",
    "): HTMLElementTagNameMap[K];\n",
    "declare function __sveltets_1_mapElementTag<K extends keyof SVGElementTagNameMap>(\n",
    "  tag: K\n",
    "): SVGElementTagNameMap[K];\n",
    "declare function __sveltets_1_mapElementTag(tag: string): HTMLElement;\n",
    "declare function __sveltets_1_mapWindowTag(): Window;\n",
    "declare function __sveltets_1_mapDocumentTag(): Document;\n",
    "\n",
    "declare function __sveltets_1_onComponentEvent<C extends \x7b $on(event: any, handler: any): any \x7d>(\n",
    "  component: C,\n",
    "  event: Parameters<C[\"$on\"]>[0],\n",
    "  handler: Parameters<C[\"$on\"]>[1]\n",
    "): \x7b\x7d;\n",
    "declare function __sveltets_1_bubbleComponentEvent<C extends \x7b $on(event: any, handler: any): any \x7d>(\n",
    "  component: C,\n",
    "  event: Parameters<C[\"$on\"]>[0]\n",
    "): \x7b\x7d;\n",
    "\n",
    "declare function __sveltets_1_slotProps<C extends \x7b $$slot_def: Record<string, any> \x7d, S extends keyof C[\"$$slot_def\"]>(\n",
    "  component: C,\n",
    "  slot: S\n",
    "): C[\"$$slot_def\"][S];\n",
    "\n",
    "declare type __sveltets_1_Render = \x7b\n",
    "  props: Record<string, any>;\n",
    "  slots: Record<string, any>;\n",
    "  events: Record<string, any>;\n",
    "\x7d;\n",
    "\n",
    "declare function __sveltets_1_createSvelte2TsxComponent<R extends __sveltets_1_Render>(\n",
    "  render: R\n",
    "): new (options: \x7b target: Element; props?: Partial<R[\"props\"]> \x7d) => \x7b\n",
    "  $$prop_def: R[\"props\"];\n",
    "  $$slot_def: R[\"slots\"];\n",
    "  $$events_def: R[\"events\"];\n",
    "  $on<K extends keyof R[\"events\"] & string>(event: K, handler: (e: R[\"events\"][K]) => any): () => void;\n",
    "  $set(props: Partial<R[\"props\"]>): void;\n",
    "  $destroy(): void;\n",
    "\x7d;\n"]

def markup : String :=
  String.join [
    "// Element typing for projected markup.\n",
    "\n",
    "declare namespace JSX \x7b\n",
    "  type Element = any;\n",
    "\n",
    "  interface ElementClass \x7b\n",
    "    $$prop_def: any;\n",
    "  \x7d\n",
    "\n",
    "  interface ElementAttributesProperty \x7b\n",
    "    $$prop_def: any;\n",
    "  \x7d\n",
    "\n",
    "  interface IntrinsicAttributes \x7b\n",
    "    slot?: string;\n",
    "  \x7d\n",
    "\n",
    "  interface IntrinsicElements \x7b\n",
    "    [name: string]: \x7b [attribute: string]: any \x7d;\n",
    "  \x7d\n",
    "\x7d\n"]

def files : List (String × String) := [("svelte-shims.d.ts", helpers), ("svelte-jsx.d.ts", markup)]

def paths : List Path := files.map fun (name, _) => directory.join ⟨name⟩

/-- The text of the ambient file at a path, if it is one. -/
def text? (p : Path) : Option String := do
  let name ← p.stripBase? directory
  files.lookup name.text

end SvelteLens.Service.Ambient
