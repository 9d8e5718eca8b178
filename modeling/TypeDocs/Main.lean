import TypeDocs.CommandLine

/-!
The program: shows a run the file that the arguments name and does what the run has done.
-/

namespace TypeDocs.CommandLine

/-- The catalog file alone, if it exists. -/
def hostFor (arguments : List String) : IO Host := do
  match arguments with
  | catalogPath :: _ :: _ =>
    try
      let content ← IO.FS.readBinFile catalogPath
      return { files := ({} : Index String ByteArray).insert catalogPath content }
    catch _ =>
      return {}
  | _ => return {}

/-- Makes the folders and writes the files that `host` has and `before` has not. -/
def carryOver (before host : Host) : IO Unit := do
  for path in host.folders do
    unless path.isEmpty do
      IO.FS.createDirAll path
  let written := host.files.pairs.take (host.files.pairs.length - before.files.pairs.length)
  for (path, content) in written.reverse do
    IO.FS.writeBinFile path content

end TypeDocs.CommandLine

open TypeDocs.CommandLine in
def main (arguments : List String) : IO UInt32 := do
  let host ← hostFor arguments
  let outcome := run host arguments
  carryOver host outcome.host
  IO.print outcome.host.output
  if let some complaint := outcome.complaint then
    IO.eprintln complaint
  return outcome.exitCode.toUInt32
