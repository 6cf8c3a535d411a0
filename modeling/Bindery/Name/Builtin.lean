/-
Name.Builtin -- names that are never inputs

The names that the cells' language and its host provide by themselves.  A cell that
uses one of them does not ask another cell for it.
-/

namespace Bindery

def languageNames : List String :=
  ["undefined", "NaN", "Infinity", "globalThis", "arguments", "eval", "Object", "Function",
    "Array", "String", "Number", "Boolean", "Symbol", "BigInt", "Math", "JSON", "Date", "RegExp",
    "Promise", "Proxy", "Reflect", "Intl", "Map", "Set", "WeakMap", "WeakSet", "WeakRef",
    "FinalizationRegistry", "Error", "TypeError", "RangeError", "SyntaxError", "ReferenceError",
    "EvalError", "URIError", "AggregateError", "ArrayBuffer", "SharedArrayBuffer", "DataView",
    "Atomics", "Int8Array", "Uint8Array", "Uint8ClampedArray", "Int16Array", "Uint16Array",
    "Int32Array", "Uint32Array", "Float32Array", "Float64Array", "BigInt64Array",
    "BigUint64Array", "parseInt", "parseFloat", "isNaN", "isFinite", "encodeURI",
    "encodeURIComponent", "decodeURI", "decodeURIComponent", "escape", "unescape"]

def hostNames : List String :=
  ["window", "self", "document", "navigator", "location", "history", "console", "setTimeout",
    "clearTimeout", "setInterval", "clearInterval", "requestAnimationFrame",
    "cancelAnimationFrame", "requestIdleCallback", "queueMicrotask", "structuredClone", "fetch",
    "atob", "btoa", "crypto", "performance", "localStorage", "sessionStorage", "indexedDB", "URL",
    "URLSearchParams", "Blob", "File", "FileReader", "FormData", "Headers", "Request", "Response",
    "TextEncoder", "TextDecoder", "AbortController", "AbortSignal", "Event", "EventTarget",
    "CustomEvent", "MessageChannel", "BroadcastChannel", "WebSocket", "Worker", "Image", "Audio",
    "Node", "Element", "HTMLElement", "SVGElement", "DocumentFragment", "MutationObserver",
    "ResizeObserver", "IntersectionObserver", "DOMParser", "XMLHttpRequest", "OffscreenCanvas",
    "ImageData", "Path2D", "CSS", "getComputedStyle", "matchMedia", "alert", "confirm", "prompt"]

def isBuiltin (name : String) : Bool :=
  languageNames.contains name || hostNames.contains name

end Bindery
