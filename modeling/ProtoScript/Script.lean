import ProtoScript.Declaration
import ProtoScript.Registration

/-! # Scripts

A script opens the namespace of a file, declares what the file declares and registers its
extensions, all inside one function.
-/

namespace ProtoScript

structure Script where
  source : String
  date : String
  target : String
  runtime : String
  runtimeModule : String
  declarations : List Declaration
  registrations : List Registration
  deriving DecidableEq, Repr

namespace Script

def banner (script : Script) : String :=
  "// DO NOT EDIT! Generated by protojson-codegen 0.3.0\n" ++
    "// Source: " ++ script.source ++ "\n" ++
    "//   Date: " ++ script.date ++ "\n\n"

/-- The root of the namespace is exported, or found in the global object. -/
def opening (script : Script) : String :=
  let root := Dotted.root script.target
  let runtime := script.runtime
  "(function()\x7b\n/** @namespace */\n" ++
    "var " ++ root ++ " = this." ++ root ++ " || \x7b\x7d;\n" ++
    "var " ++ runtime ++ " = this." ++ runtime ++ ";\n\n" ++
    "// Make it CommonJS compatible\nif (typeof exports !== 'undefined') \x7b\n" ++
    "  if (!" ++ runtime ++ " && typeof require !== 'undefined')\n" ++
    "    " ++ runtime ++ " = require('" ++ script.runtimeModule ++ "');\n" ++
    "  " ++ root ++ " = exports;\n\x7d else \x7b\n" ++
    "  this." ++ root ++ " = " ++ root ++ ";\n\x7d\n"

def scopes (script : Script) : String :=
  String.join ((Dotted.scopes script.target).tail.map fun scope =>
    scope ++ " = " ++ scope ++ " || \x7b\x7d;\n") ++ "\n"

def render (script : Script) : String :=
  script.banner ++ script.opening ++ script.scopes ++
    Declaration.renderAll script.runtime script.declarations ++
    Registration.renderAll script.runtime script.registrations ++ "\x7d)();\n"

end Script

end ProtoScript
