/-! The types that the engine's library gives to elements. -/
namespace SvelteLens.Directive

/-- An expression whose type is the type of the element. -/
def elementToken (tag : String) : String :=
  match tag with
  | "svelte:window" => "__sveltets_1_mapWindowTag()"
  | "svelte:document" => "__sveltets_1_mapDocumentTag()"
  | "svelte:body" => "__sveltets_1_mapElementTag('body')"
  | _ => "__sveltets_1_mapElementTag('" ++ tag ++ "')"

def elementClass (tag : String) : String :=
  match tag with
  | "a" => "HTMLAnchorElement"
  | "audio" => "HTMLAudioElement"
  | "button" => "HTMLButtonElement"
  | "canvas" => "HTMLCanvasElement"
  | "dialog" => "HTMLDialogElement"
  | "div" => "HTMLDivElement"
  | "form" => "HTMLFormElement"
  | "h1" | "h2" | "h3" | "h4" | "h5" | "h6" => "HTMLHeadingElement"
  | "iframe" => "HTMLIFrameElement"
  | "img" => "HTMLImageElement"
  | "input" => "HTMLInputElement"
  | "label" => "HTMLLabelElement"
  | "li" => "HTMLLIElement"
  | "ol" => "HTMLOListElement"
  | "option" => "HTMLOptionElement"
  | "p" => "HTMLParagraphElement"
  | "select" => "HTMLSelectElement"
  | "span" => "HTMLSpanElement"
  | "svg" => "SVGSVGElement"
  | "table" => "HTMLTableElement"
  | "textarea" => "HTMLTextAreaElement"
  | "ul" => "HTMLUListElement"
  | "video" => "HTMLVideoElement"
  | "svelte:body" => "HTMLBodyElement"
  | _ => "HTMLElement"

def readOnlyProperties : List String :=
  ["clientWidth", "clientHeight", "offsetWidth", "offsetHeight", "duration", "buffered", "seekable",
    "seeking", "played", "ended", "readyState", "naturalWidth", "naturalHeight"]

end SvelteLens.Directive
