import X86Layout.Text.Blank

namespace X86Layout.Assembly

/-- What stands before the first semicolon, without the blanks around it. -/
def firstStatement (text : String) : String :=
  String.ofList (Text.trim (text.toList.takeWhile (· != ';')))

end X86Layout.Assembly
