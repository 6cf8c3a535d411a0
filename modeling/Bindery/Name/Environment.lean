/-
Name.Environment -- names that the notebook's library provides

The names that the standard library of notebooks offers to every cell, in ascending
order.  An input with such a name is resolved even when no cell defines it.
-/

namespace Bindery

def environmentNames : List String :=
  ["Arrow", "DOM", "DuckDBClient", "FileAttachment", "Files", "Generators", "Inputs", "L",
    "Mutable", "Plot", "Promises", "SQLite", "SQLiteDatabaseClient", "_", "aq", "d3", "display",
    "dot", "duckdb", "echarts", "htl", "html", "invalidation", "mapboxgl", "md", "mermaid", "now",
    "require", "resize", "svg", "tex", "topojson", "view", "visibility", "vl", "width"]

def isEnvironmentName (name : String) : Bool :=
  environmentNames.contains name

end Bindery
