import JuliaReleases.Text.Basic

/-!
# Platforms

A binary is built for an operating system and a processor architecture. Each has one name in the
release catalog (`catalogName`) and several by which users may call it (`read`), in capitals or not.
-/

namespace JuliaReleases

/-- A platform that is not supported: a name that nothing is called by, or a reason. -/
structure PlatformError where
  text : Text
deriving DecidableEq

/-- The wording of the error. -/
def PlatformError.message (e : PlatformError) : Text :=
  "Unsupported platform: ".toList ++ e.text

/-- An operating system. -/
inductive Os where
  | windows
  | macOs
  | linux
deriving DecidableEq

namespace Os

/-- The name of the system in the release catalog. -/
def catalogName : Os → Text
  | windows => "winnt".toList
  | macOs => "mac".toList
  | linux => "linux".toList

/-- The names that users may call a system by. -/
def names : Os → List Text
  | windows => ["win32".toList, "windows".toList, "winnt".toList]
  | macOs => ["darwin".toList, "macos".toList, "mac".toList]
  | linux => ["linux".toList]

/-- The system that a name means. -/
def read (name : Text) : Except PlatformError Os :=
  match [windows, macOs, linux].find? (Text.asciiLowercase name ∈ ·.names) with
  | some os => .ok os
  | none => .error ⟨name⟩

end Os

/-- A processor architecture. -/
inductive Arch where
  | x86
  | x64
  | aarch64
deriving DecidableEq

namespace Arch

/-- The name of the architecture in the release catalog. -/
def catalogName : Arch → Text
  | x86 => "i686".toList
  | x64 => "x86_64".toList
  | aarch64 => "aarch64".toList

/-- The names that users may call an architecture by. -/
def names : Arch → List Text
  | x86 => ["x86".toList, "i686".toList]
  | x64 => ["x64".toList, "x86_64".toList]
  | aarch64 => ["aarch64".toList, "arm64".toList]

/-- The architecture that a name means. -/
def read (name : Text) : Except PlatformError Arch :=
  match [x86, x64, aarch64].find? (Text.asciiLowercase name ∈ ·.names) with
  | some arch => .ok arch
  | none => .error ⟨name⟩

end Arch

/-- The machine that a binary is meant for. -/
structure Platform where
  os : Os
  arch : Arch
deriving DecidableEq

end JuliaReleases
