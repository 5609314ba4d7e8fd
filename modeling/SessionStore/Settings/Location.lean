import SessionStore.Settings
import SessionStore.Text.Utf8

/-! Where the settings and the session file are unless told otherwise. -/
namespace SessionStore

/-- What the environment says about places of files. -/
structure Environment where
  home : Option Path := none
  configHome : Option Path := none
  stateHome : Option Path := none
  /-- The directory of the session file itself. -/
  stateDirectory : Option Path := none

namespace Environment

/-- A directory for every program, which counts only when it is absolute text;
without one there is a usual place in the home directory. -/
def baseDirectory (e : Environment) (told : Option Path) (usual : String) : Option Path :=
  (told.filter fun path => path.isAbsolute && Utf8.isValid path.bytes).orElse fun _ =>
    e.home.map (·.join (.ofAscii usual))

/-- A directory of this program's own among those of others. -/
def ownDirectory (base : Path) : Path := base.join (.ofAscii "the-shada")

/-- The file of the settings. -/
def settingsFile (e : Environment) : Option Path :=
  (e.baseDirectory e.configHome ".config").map fun base =>
    (ownDirectory base).join (.ofAscii "config.toml")

/-- The session file, in a directory that may be told as it is, even when it is
relative or empty. -/
def sessionFile (e : Environment) : Option Path :=
  (e.stateDirectory.orElse fun _ =>
    (e.baseDirectory e.stateHome ".local/state").map ownDirectory).map fun directory =>
      directory.join (.ofAscii "main.shada")

end Environment

/-- The session file that the settings choose, or else the usual one. -/
def Settings.sessionFile (s : Settings) (e : Environment) : Option Path :=
  s.path.orElse fun _ => e.sessionFile

end SessionStore
