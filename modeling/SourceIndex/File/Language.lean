import SourceIndex.Text.Basic

/-!
# Languages

The languages that are recognised by the extension of a file, and the built-in list of them.
-/

namespace SourceIndex

/-- A language and the extensions of its files. -/
structure Language where
  name : Text
  extensions : List Text
deriving DecidableEq

namespace Language

/-- The names and extensions of the built-in languages. -/
def table : List (String × List String) :=
  [("ActionScript", ["as"]),
   ("Assembly", ["s", "asm"]),
   ("Bash", ["bash", "sh", "zsh"]),
   ("Batch", ["bat", "cmd"]),
   ("C", ["c", "h"]),
   ("C Header", ["hh", "hpp", "hxx"]),
   ("C#", ["cs", "csx"]),
   ("C++", ["cc", "cpp", "cxx", "c++", "pcc"]),
   ("Clojure", ["clj", "cljs", "cljc", "edn"]),
   ("CoffeeScript", ["coffee"]),
   ("CSS", ["css"]),
   ("D", ["d"]),
   ("Dart", ["dart"]),
   ("Elixir", ["ex", "exs"]),
   ("Erlang", ["erl", "hrl"]),
   ("F#", ["fs", "fsi", "fsx"]),
   ("Fortran", ["f", "for", "f77", "f90", "f95"]),
   ("Go", ["go"]),
   ("Groovy", ["groovy", "gradle"]),
   ("Haskell", ["hs", "lhs"]),
   ("HTML", ["html", "htm", "xhtml"]),
   ("INI File", ["ini", "cfg"]),
   ("Java", ["java"]),
   ("JavaScript", ["js", "mjs", "cjs"]),
   ("JSON", ["json"]),
   ("JSX", ["jsx"]),
   ("Julia", ["jl"]),
   ("Kotlin", ["kt", "kts"]),
   ("LESS", ["less"]),
   ("Lisp", ["lisp", "lsp", "el"]),
   ("Lua", ["lua"]),
   ("Makefile", ["makefile", "mk"]),
   ("Markdown", ["md", "markdown"]),
   ("Objective C", ["m"]),
   ("Objective C++", ["mm"]),
   ("OCaml", ["ml", "mli"]),
   ("Pascal", ["pas"]),
   ("Perl", ["pl", "pm"]),
   ("PHP", ["php", "php3", "php4", "php5", "phtml"]),
   ("PowerShell", ["ps1", "psm1"]),
   ("Prolog", ["p", "pro"]),
   ("Python", ["py", "pyw"]),
   ("R", ["r"]),
   ("ReStructuredText", ["rst"]),
   ("Ruby", ["rb", "rake", "gemspec"]),
   ("Rust", ["rs"]),
   ("Sass", ["sass", "scss"]),
   ("Scala", ["scala", "sc"]),
   ("SQL", ["sql"]),
   ("Swift", ["swift"]),
   ("Tcl", ["tcl"]),
   ("TeX", ["tex", "sty"]),
   ("Text", ["text", "txt"]),
   ("TOML", ["toml"]),
   ("TypeScript", ["ts", "tsx"]),
   ("Visual Basic", ["vb"]),
   ("XML", ["xml", "xsd", "xsl", "xslt"]),
   ("YAML", ["yaml", "yml"])]

/-- The languages that are known without further settings. -/
def builtin : List Language := table.map fun (name, extensions) => ⟨name.toList, extensions.map String.toList⟩

end Language

end SourceIndex
