import Emend.Text.Basic

namespace Emend

namespace Marker

def endPatch : Line := "*** End Patch".toList

def updateFile : Line := "*** Update File:".toList

def deleteFile : Line := "*** Delete File:".toList

def addFile : Line := "*** Add File:".toList

def endOfFile : Line := "*** End of File".toList

/-- Lines that start with one of these end the body of a file operation. -/
def fileEnds : List Line := [endPatch, updateFile, deleteFile, addFile]

/-- Lines that start with one of these end the reading of an update. -/
def updateEnds : List Line := fileEnds ++ [endOfFile]

/-- Lines that start with one of these end a section and are not part of it. -/
def sectionEnds : List Line := ['@', '@'] :: updateEnds

end Marker

def Text.startsWithAny (leads : List Text) (l : Text) : Bool := leads.any (·.isPrefixOf l)

def Text.withoutReturns (l : Line) : Line := (l.reverse.dropWhile (· = '\r')).reverse

/-- The lines of a patch text: carriage returns before a line feed do not count, nor does the
empty piece after a final terminator. -/
def patchLines (t : Text) : List Line := Text.withoutFinalEmpty (t.lines.map Text.withoutReturns)

end Emend
