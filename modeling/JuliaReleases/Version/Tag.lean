import JuliaReleases.Text.Blank
import JuliaReleases.Version.Format

/-!
# Release tags

A repository marks a release with a tag: the version, most often behind a `v`. Tags come from
outside, so blanks around them are forgiven, and a tag that names no version is skipped.
-/

namespace JuliaReleases

namespace Tag

/-- A tag without the letter `v` at its front. -/
def stripPrefix (tag : Text) : Text :=
  match tag with
  | 'v' :: rest => rest
  | tag => tag

theorem stripPrefix_cons {c : Char} (h : c ≠ 'v') (rest : Text) :
    stripPrefix (c :: rest) = c :: rest := by
  unfold stripPrefix
  split
  · next heq => exact absurd (List.cons.inj heq).1 h
  · rfl

/-- Whether a text is the complete written form of a version, perhaps behind a `v`. -/
def IsConcrete (text : Text) : Prop :=
  (Version.read? (stripPrefix text)).isSome = true

instance (text : Text) : Decidable (IsConcrete text) :=
  inferInstanceAs (Decidable (_ = _))

/-- The version that a tag names, if it names one. -/
def version? (tag : Text) : Option Version :=
  Version.read? (stripPrefix (Text.trim tag))

/-- The versions that some tags name, in the order of the tags. -/
def versions (tags : List Text) : List Version :=
  tags.filterMap version?

end Tag

end JuliaReleases
