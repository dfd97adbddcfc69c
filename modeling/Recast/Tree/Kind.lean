-- SUMMARY: The kinds of tree nodes, their names, and the families they fall into.

/-! # Kinds of nodes

A node of the tree has a kind, which says what construct of the language it stands for. A run of
tokens that the grammar does not look into is kept as `rawTokens`, `rawStatement` or `rawMember`. -/

namespace Recast

/-- The construct that a node stands for. -/
inductive Kind where
  -- Files
  | compilationUnit
  | usingDirective
  | namespaceDeclaration
  | fileScopedNamespaceDeclaration
  -- Type declarations
  | classDeclaration
  | structDeclaration
  | interfaceDeclaration
  | recordDeclaration
  | enumDeclaration
  -- Parts of declarations
  | modifiers
  | attributeList
  | attributeTargetSpecifier
  | attribute
  | attributeArgumentList
  | attributeArgument
  | typeParameterList
  | typeParameter
  | parameterList
  | parameter
  | baseList
  | baseType
  | constraintClauses
  | explicitInterfaceSpecifier
  -- Members
  | methodDeclaration
  | constructorDeclaration
  | constructorInitializer
  | propertyDeclaration
  | accessorList
  | fieldDeclaration
  | variableDeclaration
  | variableDeclarator
  | equalsValueClause
  | arrowExpressionClause
  | rawMember
  -- Statements
  | block
  | localDeclarationStatement
  | expressionStatement
  | returnStatement
  | throwStatement
  | ifStatement
  | elseClause
  | whileStatement
  | doStatement
  | forStatement
  | forEachStatement
  | tryStatement
  | catchClause
  | catchDeclaration
  | catchFilter
  | finallyClause
  | switchStatement
  | switchSection
  | jumpStatement
  | yieldStatement
  | emptyStatement
  | parenthesizedStatement
  | checkedStatement
  | rawStatement
  -- Types and names
  | predefinedType
  | identifierName
  | genericName
  | typeArgumentList
  | qualifiedName
  | aliasQualifiedName
  | nullableType
  | arrayType
  | arrayRankSpecifier
  | tupleType
  | tupleElement
  -- Expressions
  | invocationExpression
  | argumentList
  | bracketedArgumentList
  | argument
  | memberAccessExpression
  | elementAccessExpression
  | literalExpression
  | thisExpression
  | baseExpression
  | parenthesizedExpression
  | tupleExpression
  | castExpression
  | prefixUnaryExpression
  | postfixUnaryExpression
  | awaitExpression
  | binaryExpression
  | assignmentExpression
  | conditionalExpression
  | simpleLambdaExpression
  | parenthesizedLambdaExpression
  | anonymousMethodExpression
  | objectCreationExpression
  | implicitObjectCreationExpression
  | arrayCreationExpression
  | implicitArrayCreationExpression
  | anonymousObjectCreationExpression
  | initializerExpression
  | collectionExpression
  | typeOfExpression
  | defaultExpression
  | checkedExpression
  | declarationExpression
  | throwExpression
  | switchExpression
  -- Anything else
  | rawTokens
  deriving DecidableEq, Repr

namespace Kind

/-- The name of a kind, as messages give it. -/
def name : Kind → String
  | .compilationUnit => "CompilationUnit"
  | .usingDirective => "UsingDirective"
  | .namespaceDeclaration => "NamespaceDeclaration"
  | .fileScopedNamespaceDeclaration => "FileScopedNamespaceDeclaration"
  | .classDeclaration => "ClassDeclaration"
  | .structDeclaration => "StructDeclaration"
  | .interfaceDeclaration => "InterfaceDeclaration"
  | .recordDeclaration => "RecordDeclaration"
  | .enumDeclaration => "EnumDeclaration"
  | .modifiers => "Modifiers"
  | .attributeList => "AttributeList"
  | .attributeTargetSpecifier => "AttributeTargetSpecifier"
  | .attribute => "Attribute"
  | .attributeArgumentList => "AttributeArgumentList"
  | .attributeArgument => "AttributeArgument"
  | .typeParameterList => "TypeParameterList"
  | .typeParameter => "TypeParameter"
  | .parameterList => "ParameterList"
  | .parameter => "Parameter"
  | .baseList => "BaseList"
  | .baseType => "BaseType"
  | .constraintClauses => "ConstraintClauses"
  | .explicitInterfaceSpecifier => "ExplicitInterfaceSpecifier"
  | .methodDeclaration => "MethodDeclaration"
  | .constructorDeclaration => "ConstructorDeclaration"
  | .constructorInitializer => "ConstructorInitializer"
  | .propertyDeclaration => "PropertyDeclaration"
  | .accessorList => "AccessorList"
  | .fieldDeclaration => "FieldDeclaration"
  | .variableDeclaration => "VariableDeclaration"
  | .variableDeclarator => "VariableDeclarator"
  | .equalsValueClause => "EqualsValueClause"
  | .arrowExpressionClause => "ArrowExpressionClause"
  | .rawMember => "RawMember"
  | .block => "Block"
  | .localDeclarationStatement => "LocalDeclarationStatement"
  | .expressionStatement => "ExpressionStatement"
  | .returnStatement => "ReturnStatement"
  | .throwStatement => "ThrowStatement"
  | .ifStatement => "IfStatement"
  | .elseClause => "ElseClause"
  | .whileStatement => "WhileStatement"
  | .doStatement => "DoStatement"
  | .forStatement => "ForStatement"
  | .forEachStatement => "ForEachStatement"
  | .tryStatement => "TryStatement"
  | .catchClause => "CatchClause"
  | .catchDeclaration => "CatchDeclaration"
  | .catchFilter => "CatchFilter"
  | .finallyClause => "FinallyClause"
  | .switchStatement => "SwitchStatement"
  | .switchSection => "SwitchSection"
  | .jumpStatement => "JumpStatement"
  | .yieldStatement => "YieldStatement"
  | .emptyStatement => "EmptyStatement"
  | .parenthesizedStatement => "ParenthesizedStatement"
  | .checkedStatement => "CheckedStatement"
  | .rawStatement => "RawStatement"
  | .predefinedType => "PredefinedType"
  | .identifierName => "IdentifierName"
  | .genericName => "GenericName"
  | .typeArgumentList => "TypeArgumentList"
  | .qualifiedName => "QualifiedName"
  | .aliasQualifiedName => "AliasQualifiedName"
  | .nullableType => "NullableType"
  | .arrayType => "ArrayType"
  | .arrayRankSpecifier => "ArrayRankSpecifier"
  | .tupleType => "TupleType"
  | .tupleElement => "TupleElement"
  | .invocationExpression => "InvocationExpression"
  | .argumentList => "ArgumentList"
  | .bracketedArgumentList => "BracketedArgumentList"
  | .argument => "Argument"
  | .memberAccessExpression => "MemberAccessExpression"
  | .elementAccessExpression => "ElementAccessExpression"
  | .literalExpression => "LiteralExpression"
  | .thisExpression => "ThisExpression"
  | .baseExpression => "BaseExpression"
  | .parenthesizedExpression => "ParenthesizedExpression"
  | .tupleExpression => "TupleExpression"
  | .castExpression => "CastExpression"
  | .prefixUnaryExpression => "PrefixUnaryExpression"
  | .postfixUnaryExpression => "PostfixUnaryExpression"
  | .awaitExpression => "AwaitExpression"
  | .binaryExpression => "BinaryExpression"
  | .assignmentExpression => "AssignmentExpression"
  | .conditionalExpression => "ConditionalExpression"
  | .simpleLambdaExpression => "SimpleLambdaExpression"
  | .parenthesizedLambdaExpression => "ParenthesizedLambdaExpression"
  | .anonymousMethodExpression => "AnonymousMethodExpression"
  | .objectCreationExpression => "ObjectCreationExpression"
  | .implicitObjectCreationExpression => "ImplicitObjectCreationExpression"
  | .arrayCreationExpression => "ArrayCreationExpression"
  | .implicitArrayCreationExpression => "ImplicitArrayCreationExpression"
  | .anonymousObjectCreationExpression => "AnonymousObjectCreationExpression"
  | .initializerExpression => "InitializerExpression"
  | .collectionExpression => "CollectionExpression"
  | .typeOfExpression => "TypeOfExpression"
  | .defaultExpression => "DefaultExpression"
  | .checkedExpression => "CheckedExpression"
  | .declarationExpression => "DeclarationExpression"
  | .throwExpression => "ThrowExpression"
  | .switchExpression => "SwitchExpression"
  | .rawTokens => "RawTokens"

/-- Every kind, in the order of the declaration. -/
def all : List Kind :=
  [.compilationUnit, .usingDirective, .namespaceDeclaration, .fileScopedNamespaceDeclaration,
    .classDeclaration, .structDeclaration, .interfaceDeclaration, .recordDeclaration,
    .enumDeclaration, .modifiers, .attributeList, .attributeTargetSpecifier, .attribute,
    .attributeArgumentList, .attributeArgument, .typeParameterList, .typeParameter,
    .parameterList, .parameter, .baseList, .baseType, .constraintClauses,
    .explicitInterfaceSpecifier, .methodDeclaration, .constructorDeclaration,
    .constructorInitializer, .propertyDeclaration, .accessorList, .fieldDeclaration,
    .variableDeclaration, .variableDeclarator, .equalsValueClause, .arrowExpressionClause,
    .rawMember, .block, .localDeclarationStatement, .expressionStatement, .returnStatement,
    .throwStatement, .ifStatement, .elseClause, .whileStatement, .doStatement, .forStatement,
    .forEachStatement, .tryStatement, .catchClause, .catchDeclaration, .catchFilter,
    .finallyClause, .switchStatement, .switchSection, .jumpStatement, .yieldStatement,
    .emptyStatement, .parenthesizedStatement, .checkedStatement, .rawStatement,
    .predefinedType, .identifierName, .genericName, .typeArgumentList, .qualifiedName,
    .aliasQualifiedName, .nullableType, .arrayType, .arrayRankSpecifier, .tupleType,
    .tupleElement, .invocationExpression, .argumentList, .bracketedArgumentList, .argument,
    .memberAccessExpression, .elementAccessExpression, .literalExpression, .thisExpression,
    .baseExpression, .parenthesizedExpression, .tupleExpression, .castExpression,
    .prefixUnaryExpression, .postfixUnaryExpression, .awaitExpression, .binaryExpression,
    .assignmentExpression, .conditionalExpression, .simpleLambdaExpression,
    .parenthesizedLambdaExpression, .anonymousMethodExpression, .objectCreationExpression,
    .implicitObjectCreationExpression, .arrayCreationExpression,
    .implicitArrayCreationExpression, .anonymousObjectCreationExpression,
    .initializerExpression, .collectionExpression, .typeOfExpression, .defaultExpression,
    .checkedExpression, .declarationExpression, .throwExpression, .switchExpression, .rawTokens]

/-- The kind with a given name. -/
def ofName? (name : String) : Option Kind :=
  all.find? fun kind => kind.name == name

theorem mem_all (kind : Kind) : kind ∈ all := by
  cases kind <;> decide

/-! ## Families -/

/-- A class, a struct, an interface or a record. -/
def isTypeDeclaration : Kind → Bool
  | .classDeclaration | .structDeclaration | .interfaceDeclaration | .recordDeclaration => true
  | _ => false

/-- What may stand in the body of a type. -/
def isMember : Kind → Bool
  | .enumDeclaration | .methodDeclaration | .constructorDeclaration | .propertyDeclaration
  | .fieldDeclaration | .rawMember => true
  | kind => kind.isTypeDeclaration

/-- What may stand in a block. -/
def isStatement : Kind → Bool
  | .block | .localDeclarationStatement | .expressionStatement | .returnStatement
  | .throwStatement | .ifStatement | .whileStatement | .doStatement | .forStatement
  | .forEachStatement | .tryStatement | .switchStatement | .jumpStatement | .yieldStatement
  | .emptyStatement | .parenthesizedStatement | .checkedStatement | .rawStatement => true
  | _ => false

/-- A lambda or an anonymous method. -/
def isLambda : Kind → Bool
  | .simpleLambdaExpression | .parenthesizedLambdaExpression | .anonymousMethodExpression => true
  | _ => false

/-- A construct that owns the statements in it. -/
def isFunctionLike : Kind → Bool
  | .methodDeclaration | .constructorDeclaration | .propertyDeclaration | .fieldDeclaration => true
  | kind => kind.isLambda

/-- A construct that names a type. -/
def isTypeName : Kind → Bool
  | .predefinedType | .identifierName | .genericName | .qualifiedName | .aliasQualifiedName
  | .nullableType | .arrayType | .tupleType => true
  | _ => false

end Kind

end Recast
