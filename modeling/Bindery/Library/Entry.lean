/-
Library.Entry -- the files that are the same in every library

A library is entered by a file that mounts the module on a page, and that file takes
the reactive runtime from another.  Neither depends on the notebook.
-/

namespace Bindery

def runtimeLines : List String :=
  [
    "// Generated by tessera. Do not edit.",
    "import \x7b Runtime \x7d from \"@observablehq/runtime\";",
    "import \x7b Inspector \x7d from \"@observablehq/inspector\";",
    "import \x7b Library \x7d from \"@observablehq/stdlib\";",
    "import * as Inputs from \"@observablehq/inputs\";",
    "",
    "export \x7b Runtime, Inspector, Library \x7d;",
    "",
    "export function createLibrary() \x7b",
    "  const library = new Library();",
    "  Object.assign(library, \x7b Inputs: () => Inputs \x7d);",
    "  return library;",
    "\x7d",
    "",
    "export const runtime = new Runtime(createLibrary());"]

def entryLines : List String :=
  [
    "// Generated by tessera. Do not edit.",
    "import define, \x7b cells \x7d from \"./define.js\";",
    "import \x7b Runtime, Inspector, Library, createLibrary, runtime \x7d from \"./runtime.js\";",
    "",
    "export \x7b define, cells, Runtime, Inspector, Library, createLibrary, runtime \x7d;",
    "",
    "const VIEW_PREFIX = \"viewof \";",
    "",
    "function cellKey(cell) \x7b",
    "  return `cell-$\x7bcell.index\x7d`;",
    "\x7d",
    "",
    "function findCellTarget(name) \x7b",
    "  if (typeof document === \"undefined\") return null;",
    "  for (const element of document.querySelectorAll(\"[data-cell]\")) \x7b",
    "    if (element.getAttribute(\"data-cell\") === name) return element;",
    "  \x7d",
    "  return null;",
    "\x7d",
    "",
    "function resolveTarget(cell, targets) \x7b",
    "  const keys = [...cell.names, cellKey(cell)];",
    "  for (const key of keys) \x7b",
    "    if (targets[key]) return \x7b key, target: targets[key] \x7d;",
    "  \x7d",
    "  for (const key of keys) \x7b",
    "    const target = findCellTarget(key);",
    "    if (target) return \x7b key, target \x7d;",
    "  \x7d",
    "  return \x7b key: null, target: null \x7d;",
    "\x7d",
    "",
    "function resolvePlacements(targets, fallback) \x7b",
    "  const suppressed = new Set();",
    "  for (const cell of cells) \x7b",
    "    for (const name of cell.outputs) \x7b",
    "      if (name.startsWith(VIEW_PREFIX)) suppressed.add(name.slice(VIEW_PREFIX.length));",
    "    \x7d",
    "  \x7d",
    "",
    "  const placements = new Map();",
    "  const anonymous = [];",
    "  for (const cell of cells) \x7b",
    "    const \x7b key, target \x7d = resolveTarget(cell, targets);",
    "    if (cell.outputs.length === 0) \x7b",
    "      anonymous.push(\x7b index: cell.index, key: cellKey(cell), target \x7d);",
    "      continue;",
    "    \x7d",
    "    const visible = cell.outputs.filter((name) => !suppressed.has(name));",
    "    const primary = visible.includes(key) ? key : visible[0];",
    "    for (const name of cell.outputs) \x7b",
    "      if (suppressed.has(name)) placements.set(name, \x7b kind: \"suppress\" \x7d);",
    "      else if (name === primary && target) placements.set(name, \x7b kind: \"render\", target \x7d);",
    "      else placements.set(name, fallback);",
    "    \x7d",
    "  \x7d",
    "  return \x7b placements, anonymous \x7d;",
    "\x7d",
    "",
    "export function mount(container, options = \x7b\x7d) \x7b",
    "  if (!container || typeof container.appendChild !== \"function\") \x7b",
    "    throw new Error(\"mount: a container element is required\");",
    "  \x7d",
    "  if (container.isConnected === false) \x7b",
    "    throw new Error(\"mount: the container is not attached to a document\");",
    "  \x7d",
    "",
    "  const \x7b targets = \x7b\x7d, appendUnmatched = false, evaluateUnmatched = false \x7d = options;",
    "  const fallback = appendUnmatched",
    "    ? \x7b kind: \"append\" \x7d",
    "    : evaluateUnmatched",
    "      ? \x7b kind: \"evaluate\" \x7d",
    "      : \x7b kind: \"suppress\" \x7d;",
    "  const \x7b placements, anonymous \x7d = resolvePlacements(targets, fallback);",
    "",
    "  let disposed = false;",
    "  const place = (placement) => \x7b",
    "    switch (placement.kind) \x7b",
    "      case \"render\":",
    "        return new Inspector(placement.target);",
    "      case \"append\": \x7b",
    "        const element = container.ownerDocument.createElement(\"div\");",
    "        container.appendChild(element);",
    "        return new Inspector(element);",
    "      \x7d",
    "      case \"evaluate\":",
    "        return true;",
    "      default:",
    "        return false;",
    "    \x7d",
    "  \x7d;",
    "  const observer = (name) => \x7b",
    "    if (disposed) return false;",
    "    if (name === undefined) \x7b",
    "      const slot = anonymous.shift();",
    "      return place(slot && slot.target ? \x7b kind: \"render\", target: slot.target \x7d : fallback);",
    "    \x7d",
    "    return place(placements.get(name) ?? fallback);",
    "  \x7d;",
    "",
    "  const instance = new Runtime(createLibrary());",
    "  let main;",
    "  try \x7b",
    "    main = instance.module(define, observer);",
    "  \x7d catch (error) \x7b",
    "    instance.dispose();",
    "    throw error;",
    "  \x7d",
    "",
    "  return \x7b",
    "    runtime: instance,",
    "    main,",
    "    dispose() \x7b",
    "      if (disposed) return;",
    "      disposed = true;",
    "      instance.dispose();",
    "    \x7d,",
    "  \x7d;",
    "\x7d"]

def ofLines (lines : List String) : String :=
  String.join (lines.map (· ++ "\n"))

def runtimeText : String := ofLines runtimeLines

def entryText : String := ofLines entryLines

end Bindery
